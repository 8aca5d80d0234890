/-
How the active chain moves: `ActivateBestChain` and `InvalidateBlock` as single moves of the tip.
-/
import Catoshi.BlockTreeSpec

namespace Catoshi

open CBlockIndex BlockTree List

namespace BlockTree

theorem entry_markScriptsValid (tree : BlockTree) (pindex other : CBlockIndex) :
    (tree.markScriptsValid pindex).entry other =
      if other = pindex then { tree.entry other with
        haveUndo := true
        nValidity := if (tree.entry other).failed then (tree.entry other).nValidity
          else max (tree.entry other).nValidity blockValidScripts }
      else tree.entry other := by
  rw [markScriptsValid, entry_modify, BlockEntry.raiseValidity_eq]
  rfl

theorem entry_invalid (params : TreeParams) (tree : BlockTree) (pindex other : CBlockIndex) :
    (tree.invalidBlockFound params pindex).entry other =
      if other = pindex then { tree.entry other with failedValid := true }
      else tree.entry other := by
  rw [← entry_markFailedValid, invalidBlockFound, insertFailed]
  split <;> rfl

theorem mem_gFailedBlocks_invalid (params : TreeParams) (tree : BlockTree)
    (pindex other : CBlockIndex) :
    other ∈ (tree.invalidBlockFound params pindex).gFailedBlocks ↔
      other = pindex ∨ other ∈ tree.gFailedBlocks := by
  rw [invalidBlockFound, insertFailed]
  split_ifs with hmem
  · refine ⟨.inr, ?_⟩
    rintro (rfl | ho)
    · exact hmem
    · exact ho
  · exact mem_orderedInsert _

variable {β : Type*} {next tree : BlockTree} {params : TreeParams} {env : ActivateEnv}
  {pindex : CBlockIndex}

theorem invalidBlockFound_keeps (part : BlockTree → β)
    (hpart : ∀ (tree : BlockTree) entry candidates failed, part { tree with
      entry := entry, setBlockIndexCandidates := candidates,
      gFailedBlocks := failed } = part tree := by intros; rfl) :
    part (tree.invalidBlockFound params pindex) = part tree := by
  rw [invalidBlockFound, insertFailed]
  split <;> exact hpart tree _ _ _

theorem candidates_invalid (params : TreeParams) (tree : BlockTree) (pindex : CBlockIndex) :
    (tree.invalidBlockFound params pindex).setBlockIndexCandidates =
      tree.setBlockIndexCandidates.filter fun other => other ≠ pindex := by
  rw [invalidBlockFound, insertFailed]
  split <;> rfl

theorem mem_candidates_invalid (params : TreeParams) (tree : BlockTree)
    (pindex other : CBlockIndex) :
    other ∈ (tree.invalidBlockFound params pindex).setBlockIndexCandidates ↔
      other ∈ tree.setBlockIndexCandidates ∧ other ≠ pindex := by
  rw [candidates_invalid, mem_filter, decide_eq_true_eq]

theorem removeChain_keeps (part : BlockTree → β)
    (hpart : ∀ (tree : BlockTree) entry candidates unlinked, part { tree with
      entry := entry, setBlockIndexCandidates := candidates,
      mapBlocksUnlinked := unlinked } = part tree := by intros; rfl)
    {pindexNew pindexTest : CBlockIndex} {fFailedChain : Bool} :
    part (tree.removeChain pindexNew pindexTest fFailedChain) = part tree := by
  have hlast : ∀ tree : BlockTree, part (tree.eraseCandidate pindexTest) = part tree :=
    fun tree => hpart tree _ _ _
  rw [removeChain, hlast]
  refine foldl_keeps part fun tree pindex => ?_
  cases fFailedChain with
  | true => exact hpart tree _ _ _
  | false =>
    cases pindex.pprev with
    | none | some => exact hpart tree _ _ _

theorem mem_candidates_removeChain (tree : BlockTree) (pindexNew pindexTest other : CBlockIndex)
    (fFailedChain : Bool) :
    other ∈ (tree.removeChain pindexNew pindexTest fFailedChain).setBlockIndexCandidates ↔
      other ∈ tree.setBlockIndexCandidates ∧ other ∉ pindexNew.above pindexTest ∧
        other ≠ pindexTest := by
  rw [removeChain, eraseCandidate_setBlockIndexCandidates, mem_filter, decide_eq_true_eq,
    mem_candidates_foldl_erase, and_assoc]
  intro tree pindex
  cases fFailedChain with
  | true => rfl
  | false => cases pindex.pprev <;> rfl

theorem candidates_foldl_erase_sublist {round : BlockTree → CBlockIndex → BlockTree}
    (hround : ∀ tree pindex, (round tree pindex).setBlockIndexCandidates =
      tree.setBlockIndexCandidates.filter fun other => other ≠ pindex)
    (blocks : List CBlockIndex) (tree : BlockTree) :
    (blocks.foldl round tree).setBlockIndexCandidates.Sublist tree.setBlockIndexCandidates := by
  induction blocks generalizing tree with
  | nil => exact List.Sublist.refl _
  | cons pindex blocks ih =>
    refine (ih (round tree pindex)).trans ?_
    rw [hround]
    exact filter_sublist

/-- Dropping a candidate leaves fewer of them. -/
theorem length_removeChain_lt {pindexNew pindexTest : CBlockIndex}
    (hcand : pindexNew ∈ tree.setBlockIndexCandidates)
    (hmem : pindexTest ∈ pindexNew.ancestors) (fFailedChain : Bool) :
    (tree.removeChain pindexNew pindexTest fFailedChain).setBlockIndexCandidates.length <
      tree.setBlockIndexCandidates.length := by
  have hsub : (tree.removeChain pindexNew pindexTest fFailedChain).setBlockIndexCandidates.Sublist
      tree.setBlockIndexCandidates := by
    refine filter_sublist.trans (candidates_foldl_erase_sublist (fun tree other => ?_) _ _)
    cases fFailedChain with
    | true => rfl
    | false => cases other.pprev <;> rfl
  refine lt_of_le_of_ne hsub.length_le fun hlen => ?_
  have hstays : pindexNew ∈
      (tree.removeChain pindexNew pindexTest fFailedChain).setBlockIndexCandidates := by
    rw [hsub.eq_of_length hlen]
    exact hcand
  obtain ⟨-, habove, hne⟩ := (mem_candidates_removeChain tree _ _ _ _).1 hstays
  exact habove ((mem_above_iff hmem).2 ⟨ancestors_self _, hmem, hne⟩)

theorem entry_removeChain_failed (tree : BlockTree) (pindexNew pindexTest other : CBlockIndex) :
    (tree.removeChain pindexNew pindexTest true).entry other =
      if other ∈ pindexNew.above pindexTest then { tree.entry other with failedChild := true }
      else tree.entry other := by
  refine entry_foldl_mark (fun tree pindex other => ?_) _ _ _
  exact entry_markFailedChild tree pindex other

theorem entry_removeChain_missing (tree : BlockTree) (pindexNew pindexTest : CBlockIndex) :
    (tree.removeChain pindexNew pindexTest false).entry = tree.entry := by
  refine foldl_keeps entry fun tree pindex => ?_
  cases pindex.pprev <;> rfl

theorem unlinked_removeChain {pindexNew pindexTest : CBlockIndex} {fFailedChain : Bool}
    {waiting : CBlockIndex × CBlockIndex}
    (hwait : waiting ∈ (tree.removeChain pindexNew pindexTest fFailedChain).mapBlocksUnlinked) :
    waiting ∈ tree.mapBlocksUnlinked ∨ waiting.2 ∈ pindexNew.above pindexTest := by
  rw [removeChain] at hwait
  revert hwait
  generalize pindexNew.above pindexTest = blocks
  intro hwait
  induction blocks generalizing tree with
  | nil => exact .inl hwait
  | cons pindex blocks ih =>
    rcases ih hwait with hold | hblocks
    · cases fFailedChain with
      | true => exact .inl hold
      | false =>
        revert hold
        simp only [Bool.false_eq_true, if_false]
        cases pindex.pprev with
        | none => exact .inl
        | some pprev =>
          intro hold
          rcases mem_cons.1 hold with rfl | hold
          · exact .inr mem_cons_self
          · exact .inl hold
    · exact .inr (mem_cons_of_mem _ hblocks)

/-- The steps by which `ActivateBestChain` moves. -/
inductive Move (params : TreeParams) (env : ActivateEnv) (tree : BlockTree) : BlockTree → Prop
  | disconnect (pprev : CBlockIndex) (hprev : tree.tip.pprev = some pprev) :
      Move params env tree { tree with tip := pprev }
  | connect (pindex : CBlockIndex) (next : BlockTree) (hknown : pindex ∈ tree.mapBlockIndex)
      (hprev : pindex.pprev = some tree.tip) (husable : tree.Usable pindex)
      (hconnects : env.connects pindex = .connected)
      (hprune : (tree.connectTip pindex).pruneBlockIndexCandidates params = .ok next) :
      Move params env tree next
  | invalid (pindex : CBlockIndex) (hknown : pindex ∈ tree.mapBlockIndex)
      (hprev : pindex.pprev = some tree.tip) (husable : tree.Usable pindex)
      (hconnects : env.connects pindex = .invalid) :
      Move params env tree (tree.invalidBlockFound params pindex)
  | systemError (pindex : CBlockIndex) (hknown : pindex ∈ tree.mapBlockIndex)
      (hprev : pindex.pprev = some tree.tip) (husable : tree.Usable pindex)
      (hconnects : env.connects pindex = .systemError true) :
      Move params env tree (tree.markScriptsValid pindex)
  | discard (pindexNew pindexTest : CBlockIndex)
      (hcandidate : pindexNew ∈ tree.setBlockIndexCandidates)
      (hmem : pindexTest ∈ pindexNew.ancestors)
      (hunusable : (tree.entry pindexTest).failed = true ∨
        (tree.entry pindexTest).haveData = false) :
      Move params env tree (tree.removeChain pindexNew pindexTest (tree.entry pindexTest).failed)

/-- Pruning only takes candidates away. -/
theorem pruneCandidates_eq (hprune : tree.pruneBlockIndexCandidates params = .ok next) :
    next = { tree with
      setBlockIndexCandidates :=
        tree.setBlockIndexCandidates.filter fun pindex => !tree.less params pindex tree.tip } := by
  rw [pruneBlockIndexCandidates] at hprune
  split_ifs at hprune
  exact (Except.ok.inj hprune).symm

variable {other pa pb : CBlockIndex} {found start : Option CBlockIndex} {result : Option Bool}

/-- Finding a block valid does not change which chains are usable. -/
theorem usable_markScriptsValid :
    (tree.markScriptsValid pindex).Usable other ↔ tree.Usable other := by
  have hsame : ∀ block, ((tree.markScriptsValid pindex).entry block).failed =
      (tree.entry block).failed ∧ ((tree.markScriptsValid pindex).entry block).haveData =
      (tree.entry block).haveData := by
    intro block
    rw [entry_markScriptsValid]
    split <;> exact ⟨rfl, rfl⟩
  simp only [Usable, hsame]

theorem Grown.move (hgrown : tree.Grown params) (hmove : Move params env tree next) :
    next.Grown params := by
  cases hmove with
  | disconnect pprev hprev =>
    exact hgrown.of_map_eq rfl (hgrown.pprev _ hgrown.tip pprev hprev) hgrown.candidates
      hgrown.unlinked hgrown.failed (hgrown.usable.of_mem (mem_of_pprev hprev))
  | connect pindex next hknown hprev huse hconns hprune =>
    rw [pruneCandidates_eq hprune]
    exact hgrown.of_map_eq rfl hknown (fun other ho => hgrown.candidates other (mem_filter.1 ho).1)
      hgrown.unlinked hgrown.failed (usable_markScriptsValid.2 huse)
  | invalid pindex hknown hprev huse hconns =>
    refine hgrown.of_map_eq (invalidBlockFound_keeps mapBlockIndex) ?_ ?_ ?_ ?_ ?_
    · rw [invalidBlockFound_keeps BlockTree.tip]
      exact hgrown.tip
    · intro other ho
      exact hgrown.candidates other ((mem_candidates_invalid params tree pindex other).1 ho).1
    · rw [invalidBlockFound_keeps mapBlocksUnlinked]
      exact hgrown.unlinked
    · intro other ho
      rcases (mem_gFailedBlocks_invalid params tree pindex other).1 ho with
        rfl | hold
      · exact hknown
      · exact hgrown.failed other hold
    · intro other ho
      rw [invalidBlockFound_keeps BlockTree.tip] at ho
      rw [entry_invalid, if_neg]
      · exact hgrown.usable other ho
      · rintro rfl
        have hle := nHeight_le_of_mem ho
        rw [nHeight_of_pprev hprev] at hle
        omega
  | systemError pindex hknown hprev huse hconns =>
    exact hgrown.of_map_eq rfl hgrown.tip hgrown.candidates hgrown.unlinked hgrown.failed
      (usable_markScriptsValid.2 hgrown.usable)
  | discard pindexNew pindexTest hcand hmem hunusable =>
    have hknown := hgrown.candidates pindexNew hcand
    refine hgrown.of_map_eq (removeChain_keeps mapBlockIndex) ?_ ?_ ?_ ?_ ?_
    · rw [removeChain_keeps BlockTree.tip]
      exact hgrown.tip
    · intro other ho
      exact hgrown.candidates other ((mem_candidates_removeChain tree _ _ _ _).1 ho).1
    · intro waiting hwait
      rcases unlinked_removeChain hwait with hold | habove
      · exact hgrown.unlinked waiting hold
      · exact hgrown.ancestors hknown ((mem_above_iff hmem).1 habove).1
    · rw [removeChain_keeps gFailedBlocks]
      exact hgrown.failed
    · intro other ho
      rw [removeChain_keeps BlockTree.tip] at ho
      cases hfail : (tree.entry pindexTest).failed with
      | false =>
        rw [entry_removeChain_missing]
        exact hgrown.usable other ho
      | true =>
        rw [entry_removeChain_failed, if_neg]
        · exact hgrown.usable other ho
        · intro habove
          obtain ⟨-, hbelow, -⟩ := (mem_above_iff hmem).1 habove
          exact hgrown.not_failed_below hbelow hfail ho

/-- Any number of such steps. -/
abbrev Moves (params : TreeParams) (env : ActivateEnv) : BlockTree → BlockTree → Prop :=
  Relation.ReflTransGen (Move params env)

theorem Grown.moves (hgrown : tree.Grown params) (hmoves : Moves params env tree next) :
    next.Grown params := by
  induction hmoves with
  | refl => exact hgrown
  | tail _ hmove ih => exact ih.move hmove

theorem Move.mapBlockIndex (hmove : Move params env tree next) :
    next.mapBlockIndex = tree.mapBlockIndex := by
  cases hmove with
  | disconnect => rfl
  | connect pindex next hknown hprev huse hconns hprune =>
    rw [pruneCandidates_eq hprune]
    rfl
  | invalid => exact invalidBlockFound_keeps mapBlockIndex
  | systemError => rfl
  | discard => exact removeChain_keeps mapBlockIndex

theorem mapBlockIndex_of_moves (hmoves : Moves params env tree next) :
    next.mapBlockIndex = tree.mapBlockIndex := by
  induction hmoves with
  | refl => rfl
  | tail _ hmove ih => rw [hmove.mapBlockIndex, ih]

/-- A move keeps the order of the blocks and the failure marks and adds no candidate. -/
structure Shrunk (tree next : BlockTree) : Prop where
  nChainWork : ∀ pindex, (next.entry pindex).nChainWork = (tree.entry pindex).nChainWork
  nSequenceId : ∀ pindex, (next.entry pindex).nSequenceId = (tree.entry pindex).nSequenceId
  failed : ∀ pindex, (tree.entry pindex).failed = true → (next.entry pindex).failed = true
  candidates : ∃ keep : CBlockIndex → Bool,
    next.setBlockIndexCandidates = tree.setBlockIndexCandidates.filter keep

theorem Shrunk.refl (tree : BlockTree) : Shrunk tree tree :=
  ⟨fun _ => rfl, fun _ => rfl, fun _ => id, fun _ => true, (filter_true _).symm⟩

theorem Shrunk.trans {mid : BlockTree} (hfst : Shrunk tree mid) (hsnd : Shrunk mid next) :
    Shrunk tree next where
  nChainWork := fun pindex => (hsnd.nChainWork pindex).trans (hfst.nChainWork pindex)
  nSequenceId := fun pindex => (hsnd.nSequenceId pindex).trans (hfst.nSequenceId pindex)
  failed := fun pindex => hsnd.failed pindex ∘ hfst.failed pindex
  candidates := by
    obtain ⟨first, hfst⟩ := hfst.candidates
    obtain ⟨second, hsnd⟩ := hsnd.candidates
    exact ⟨_, by rw [hsnd, hfst, filter_filter]⟩

theorem shrunk_markFailedChild (tree : BlockTree) (pindex : CBlockIndex) :
    Shrunk tree ((tree.markFailedChild pindex).eraseCandidate pindex) := by
  constructor
  · intro other
    rw [eraseCandidate_entry, entry_markFailedChild]
    split <;> rfl
  · intro other
    rw [eraseCandidate_entry, entry_markFailedChild]
    split <;> rfl
  · intro other hmark
    rw [eraseCandidate_entry, entry_markFailedChild]
    split
    · exact Bool.or_true _
    · exact hmark
  · exact ⟨_, rfl⟩

theorem shrunk_eraseCandidate (tree : BlockTree) (pindex : CBlockIndex) :
    Shrunk tree (tree.eraseCandidate pindex) :=
  ⟨fun _ => rfl, fun _ => rfl, fun _ => id, _, rfl⟩

theorem shrunk_removeChain (tree : BlockTree) (pindexNew pindexTest : CBlockIndex)
    (fFailedChain : Bool) : Shrunk tree (tree.removeChain pindexNew pindexTest fFailedChain) := by
  apply Shrunk.trans _ (shrunk_eraseCandidate _ pindexTest)
  generalize pindexNew.above pindexTest = blocks
  induction blocks generalizing tree with
  | nil => exact .refl tree
  | cons pindex blocks ih =>
    apply Shrunk.trans _ (ih _)
    cases fFailedChain with
    | true => exact shrunk_markFailedChild tree pindex
    | false =>
      simp only [Bool.false_eq_true, if_false]
      cases pindex.pprev with
      | none => exact shrunk_eraseCandidate tree pindex
      | some pprev => exact ⟨fun _ => rfl, fun _ => rfl, fun _ => id, _, rfl⟩

theorem shrunk_markScriptsValid (tree : BlockTree) (pindex : CBlockIndex) :
    Shrunk tree (tree.markScriptsValid pindex) := by
  refine ⟨fun other => ?_, fun other => ?_, fun other hmark => ?_, fun _ => true,
    (filter_true _).symm⟩
  · rw [entry_markScriptsValid]
    split <;> rfl
  · rw [entry_markScriptsValid]
    split <;> rfl
  · rw [entry_markScriptsValid]
    split <;> exact hmark

theorem Move.shrunk (hmove : Move params env tree next) : Shrunk tree next := by
  cases hmove with
  | disconnect pprev hprev =>
    exact ⟨fun _ => rfl, fun _ => rfl, fun _ => id, (Shrunk.refl tree).candidates⟩
  | connect pindex next hknown hprev huse hconns hprune =>
    have hmark := shrunk_markScriptsValid tree pindex
    rw [pruneCandidates_eq hprune]
    exact ⟨hmark.nChainWork, hmark.nSequenceId, hmark.failed, _, rfl⟩
  | invalid pindex hknown hprev huse hconns =>
    refine ⟨fun other => ?_, fun other => ?_, fun other hmark => ?_, _,
      candidates_invalid params tree pindex⟩
    · rw [entry_invalid]
      split <;> rfl
    · rw [entry_invalid]
      split <;> rfl
    · rw [entry_invalid]
      split
      · rfl
      · exact hmark
  | systemError pindex hknown hprev huse hconns => exact shrunk_markScriptsValid tree pindex
  | discard pindexNew pindexTest hcand hmem hunusable =>
    exact shrunk_removeChain tree pindexNew pindexTest _

theorem shrunk_of_moves (hmoves : Moves params env tree next) : Shrunk tree next := by
  induction hmoves with
  | refl => exact .refl tree
  | tail _ hmove ih => exact ih.trans hmove.shrunk

/-- The walk from a candidate shows that its chain is usable, or ends at a block that is not. -/
theorem findUnusable_spec (huse : tree.Usable tree.tip) {result : Option (CBlockIndex × Bool)}
    (hfind : tree.findUnusable pindex = .ok result) :
    result = none ∧ tree.Usable pindex ∨
      ∃ pindexTest ∈ pindex.ancestors,
        result = some (pindexTest, (tree.entry pindexTest).failed) ∧
        ((tree.entry pindexTest).failed = true ∨ (tree.entry pindexTest).haveData = false) := by
  have hchain : ∀ block, tree.contains block = true → tree.Usable block := fun block hblk =>
    huse.of_mem (contains_iff.1 hblk)
  have hblocked : ∀ block, ((tree.entry block).failed || !(tree.entry block).haveData) = true →
      (tree.entry block).failed = true ∨ (tree.entry block).haveData = false := by
    simp
  have hfree : ∀ block, ¬ ((tree.entry block).failed || !(tree.entry block).haveData) = true →
      (tree.entry block).failed = false ∧ (tree.entry block).haveData = true := by
    simp
  induction pindex with
  | genesis hash time =>
    rw [findUnusable] at hfind
    split at hfind
    · next hcont =>
      cases hfind
      exact .inl ⟨rfl, hchain _ hcont⟩
    · split at hfind
      · next hblk =>
        cases hfind
        exact .inr ⟨_, ancestors_self _, rfl, hblocked _ hblk⟩
      · next hblk =>
        cases hfind
        refine .inl ⟨rfl, fun other ho => ?_⟩
        rw [ancestors, mem_singleton] at ho
        exact ho ▸ hfree _ hblk
  | child pprev hash time ih =>
    rw [findUnusable] at hfind
    split at hfind
    · next hcont =>
      cases hfind
      exact .inl ⟨rfl, hchain _ hcont⟩
    · split at hfind
      · cases hfind
      · split at hfind
        · next hblk =>
          cases hfind
          exact .inr ⟨_, ancestors_self _, rfl, hblocked _ hblk⟩
        · next hblk =>
          rcases ih hfind with ⟨hno, hbelow⟩ | ⟨pindexTest, hmem, hrest⟩
          · refine .inl ⟨hno, fun other ho => ?_⟩
            rcases mem_cons.1 ho with rfl | ho
            · exact hfree _ hblk
            · exact hbelow other ho
          · exact .inr ⟨pindexTest, mem_cons_of_mem _ hmem, hrest⟩

/-- Blocks compare by work, order of arrival, then address. -/
def rank (params : TreeParams) (tree : BlockTree) (pindex : CBlockIndex) : ℕ ×ₗ ℤ ×ₗ ℤ :=
  toLex ((tree.entry pindex).nChainWork,
    toLex (-(tree.entry pindex).nSequenceId, -(params.address pindex : ℤ)))

theorem less_iff : tree.less params pa pb = true ↔ tree.rank params pa < tree.rank params pb := by
  rw [less, rank, rank, Prod.Lex.toLex_lt_toLex, Prod.Lex.toLex_lt_toLex]
  split_ifs
  all_goals
    simp only [decide_eq_true_eq, true_iff, false_iff]
    omega

theorem less_eq_false_iff :
    tree.less params pa pb = false ↔ tree.rank params pb ≤ tree.rank params pa := by
  rw [← Bool.not_eq_true, less_iff, not_lt]

/-- The order of candidates looks only at work and arrival. -/
theorem less_congr (hwork : ∀ block, (next.entry block).nChainWork = (tree.entry block).nChainWork)
    (hsequence : ∀ block, (next.entry block).nSequenceId = (tree.entry block).nSequenceId)
    (first second : CBlockIndex) :
    next.less params first second = tree.less params first second := by
  rw [less, less, hwork, hwork, hsequence, hsequence]

/-- Going through candidates ends with the best of them. -/
theorem foldl_better (candidates : List CBlockIndex) (start : CBlockIndex) :
    ∃ best, candidates.foldl (tree.better params) (some start) = some best ∧
      (best = start ∨ best ∈ candidates) ∧
      tree.rank params start ≤ tree.rank params best ∧
      ∀ pindex ∈ candidates, tree.rank params pindex ≤ tree.rank params best := by
  induction candidates generalizing start with
  | nil => exact ⟨start, rfl, .inl rfl, le_rfl, nofun⟩
  | cons pindex candidates ih =>
    rw [foldl_cons, better]
    split_ifs with hless
    · obtain ⟨best, hfold, hmem, hfst, hrest⟩ := ih pindex
      exact ⟨best, hfold, .inr (mem_cons.2 hmem), (less_iff.1 hless).le.trans hfst,
        forall_mem_cons.2 ⟨hfst, hrest⟩⟩
    · obtain ⟨best, hfold, hmem, hfst, hrest⟩ := ih start
      have hle := less_eq_false_iff.1 (Bool.eq_false_iff.2 hless)
      refine ⟨best, hfold, ?_, hfst, forall_mem_cons.2 ⟨hle.trans hfst, hrest⟩⟩
      exact hmem.imp_right (mem_cons_of_mem _)

theorem bestCandidate_spec (params : TreeParams) (tree : BlockTree) :
    tree.setBlockIndexCandidates = [] ∧ tree.bestCandidate params = none ∨
      ∃ best ∈ tree.setBlockIndexCandidates, tree.bestCandidate params = some best ∧
        ∀ pindex ∈ tree.setBlockIndexCandidates,
          tree.rank params pindex ≤ tree.rank params best := by
  rw [bestCandidate]
  cases tree.setBlockIndexCandidates with
  | nil => exact .inl ⟨rfl, rfl⟩
  | cons pindex candidates =>
    obtain ⟨best, hfold, hmem, hfst, hrest⟩ := foldl_better candidates pindex
    exact .inr ⟨best, mem_cons.2 hmem, hfold, forall_mem_cons.2 ⟨hfst, hrest⟩⟩

/-- `FindMostWorkChain` drops candidates until the best left is usable. -/
structure Search (params : TreeParams) (env : ActivateEnv) (n : ℕ) (tree : BlockTree)
    (found : Option CBlockIndex) (next : BlockTree) : Prop where
  moves : Moves params env tree next
  tip : next.tip = tree.tip
  chosen : ∀ pindex, found = some pindex → pindex ∈ next.setBlockIndexCandidates ∧
    next.Usable pindex ∧ ∀ other ∈ next.setBlockIndexCandidates,
      next.rank params other ≤ next.rank params pindex
  exhausted : found = none → tree.setBlockIndexCandidates.length < n →
    next.setBlockIndexCandidates = []

theorem findMostWorkChain_search (env : ActivateEnv) {n : ℕ} (hgrown : tree.Grown params)
    (hfind : findMostWorkChain params n tree = .ok (found, next)) :
    Search params env n tree found next := by
  induction n generalizing tree with
  | zero =>
    cases hfind
    exact ⟨.refl, rfl, nofun, fun _ hfuel => absurd hfuel (Nat.not_lt_zero _)⟩
  | succ n ih =>
    rw [findMostWorkChain] at hfind
    rcases bestCandidate_spec params tree with ⟨hempty, hno⟩ | ⟨best, hcand, hbest, hmax⟩
    · rw [hno] at hfind
      cases hfind
      exact ⟨.refl, rfl, nofun, fun _ _ => hempty⟩
    · rw [hbest] at hfind
      dsimp only at hfind
      split at hfind
      · cases hfind
      · next hno =>
        cases hfind
        rcases findUnusable_spec hgrown.usable hno with ⟨-, huse⟩ | ⟨_, _, hsome, _⟩
        · refine ⟨.refl, rfl, fun pindex hpidx => ?_, nofun⟩
          exact Option.some.inj hpidx ▸ ⟨hcand, huse, hmax⟩
        · cases hsome
      · next pindexTest fFailedChain hsome =>
        rcases findUnusable_spec hgrown.usable hsome with
          ⟨hno, -⟩ | ⟨test, hmem, heq, hunusable⟩
        · cases hno
        · cases heq
          have hmove : Move params env tree _ := .discard best pindexTest hcand hmem hunusable
          have hrest := ih (hgrown.move hmove) hfind
          refine ⟨.head hmove hrest.moves, hrest.tip.trans ?_, hrest.chosen,
            fun hno hfuel => hrest.exhausted hno ?_⟩
          · exact removeChain_keeps BlockTree.tip
          · exact (length_removeChain_lt hcand hmem _).trans_le (Nat.lt_succ_iff.1 hfuel)

theorem disconnectTip_of_child {pprev : CBlockIndex} {hash : Uint256} {time : UInt32}
    (htip : tree.tip = .child pprev hash time) :
    tree.disconnectTip env =
      if env.disconnects tree.tip then some { tree with tip := pprev } else none := by
  rw [disconnectTip, htip]

/-- Disconnecting to the fork changes only the tip. -/
theorem disconnectTo_spec (params : TreeParams) (env : ActivateEnv)
    (pindexFork : Option CBlockIndex) (tree : BlockTree) :
    ∃ low ∈ tree.tip.ancestors, Moves params env tree { tree with tip := low } ∧
      (disconnectTo env pindexFork tree.tip tree = .error { tree with tip := low } ∨
        some low = pindexFork ∧
          disconnectTo env pindexFork tree.tip tree = .ok { tree with tip := low }) := by
  generalize htip : tree.tip = tip
  induction tip generalizing tree with
  | genesis hash time =>
    refine ⟨tree.tip, htip ▸ ancestors_self _, .refl, ?_⟩
    rw [disconnectTo, htip]
    split
    · next hfork => exact .inr ⟨hfork, by rw [← htip]⟩
    · exact .inl (by rw [← htip])
  | child pprev hash time ih =>
    have hstay : child pprev hash time ∈ (child pprev hash time).ancestors := ancestors_self _
    rw [disconnectTo, disconnectTip_of_child htip]
    by_cases hfork : some (child pprev hash time) = pindexFork
    · rw [if_pos hfork]
      exact ⟨_, hstay, htip ▸ .refl, .inr ⟨hfork, by rw [← htip]⟩⟩
    · rw [if_neg hfork]
      split_ifs with hdisconnects
      · obtain ⟨low, hlow, hmoves, hres⟩ := ih { tree with tip := pprev } rfl
        have hmove : Move params env tree { tree with tip := pprev } :=
          .disconnect pprev (by rw [htip]; rfl)
        exact ⟨low, mem_cons_of_mem _ hlow, .head hmove hmoves, hres⟩
      · exact ⟨_, hstay, htip ▸ .refl, .inl (by rw [← htip])⟩

/-- The loop that connects blocks, along usable ones. -/
theorem connectBlocks_moves {oldWork : ℕ} {blocks : List CBlockIndex}
    (hblocks : ∀ pindex ∈ blocks, pindex ∈ tree.mapBlockIndex ∧ tree.Usable pindex)
    (hconn : connectBlocks params env oldWork blocks tree = .ok (result, next)) :
    Moves params env tree next ∧
      (result = some false → ∀ pindex, tree.Usable pindex → next.Usable pindex) := by
  induction blocks generalizing tree with
  | nil =>
    cases hconn
    exact ⟨.refl, fun _ _ huse => huse⟩
  | cons pindex blocks ih =>
    obtain ⟨hknown, huse⟩ := hblocks pindex mem_cons_self
    rw [connectBlocks] at hconn
    split_ifs at hconn with hprev
    have hprev := not_not.1 hprev
    split at hconn
    · next hconns =>
      split at hconn
      · cases hconn
      · next pruned hprune =>
        have hmove : Move params env tree pruned :=
          .connect pindex pruned hknown hprev huse hconns hprune
        have hkeeps : ∀ other, tree.Usable other → pruned.Usable other := by
          intro other ho
          rw [pruneCandidates_eq hprune]
          exact usable_markScriptsValid.2 ho
        split at hconn
        · cases hconn
          exact ⟨.single hmove, fun _ => hkeeps⟩
        · obtain ⟨hmoves, hrest⟩ := ih (fun other ho => by
            obtain ⟨hmem, hfree⟩ := hblocks other (mem_cons_of_mem _ ho)
            rw [hmove.mapBlockIndex]
            exact ⟨hmem, hkeeps other hfree⟩) hconn
          exact ⟨.head hmove hmoves, fun hres other ho =>
            hrest hres other (hkeeps other ho)⟩
    · next hconns =>
      cases hconn
      exact ⟨.single (.invalid pindex hknown hprev huse hconns), nofun⟩
    · cases hconn
      exact ⟨.refl, nofun⟩
    · next scriptsValid hconns =>
      cases hconn
      refine ⟨?_, nofun⟩
      cases scriptsValid with
      | false => exact .refl
      | true => exact .single (.systemError pindex hknown hprev huse hconns)

theorem mem_of_findFork {fork : CBlockIndex} (hfork : tree.findFork pindex = some fork) :
    fork ∈ pindex.ancestors ∧ fork ∈ tree.tip.ancestors := by
  obtain ⟨start, hstart, hfind⟩ := Option.bind_eq_some_iff.1 hfork
  have hbelow : start ∈ pindex.ancestors := by
    split at hstart
    · exact mem_of_getAncestor hstart
    · exact Option.some.inj hstart ▸ ancestors_self _
  have hcont := List.find?_some hfind
  exact ⟨ancestors_trans (mem_of_find?_eq_some hfind) hbelow, contains_iff.1 hcont⟩

theorem activateBestChainStep_moves {pindexMostWork : CBlockIndex} (hgrown : tree.Grown params)
    (hknown : pindexMostWork ∈ tree.mapBlockIndex) (huse : tree.Usable pindexMostWork)
    (hstep : tree.activateBestChainStep params env pindexMostWork = .ok (result, next)) :
    Moves params env tree next ∧ (result = some false → next.Usable pindexMostWork) := by
  obtain ⟨low, -, hmoves, herror | ⟨hfork, hok⟩⟩ :=
    disconnectTo_spec params env (tree.findFork pindexMostWork) tree
  · rw [activateBestChainStep, herror] at hstep
    cases hstep
    exact ⟨hmoves, nofun⟩
  · rw [activateBestChainStep, hok] at hstep
    have hmem := (mem_of_findFork hfork.symm).1
    have hblocks : ∀ pindex ∈ (pindexMostWork.above low).reverse,
        pindex ∈ tree.mapBlockIndex ∧ tree.Usable pindex := by
      intro pindex hpidx
      have hbelow := ((mem_above_iff hmem).1 (mem_reverse.1 hpidx)).1
      exact ⟨hgrown.ancestors hknown hbelow, huse.of_mem hbelow⟩
    have hconn : Moves params env { tree with tip := low } next ∧ _ :=
      connectBlocks_moves hblocks hstep
    obtain ⟨hrest, hkeeps⟩ := hconn
    exact ⟨hmoves.trans hrest, fun hres => hkeeps hres pindexMostWork huse⟩

theorem mostWork_moves (env : ActivateEnv) (hgrown : tree.Grown params)
    (hstart : ∀ pindex, start = some pindex → pindex ∈ tree.mapBlockIndex ∧ tree.Usable pindex)
    (hfind : tree.mostWork params start = .ok (found, next)) :
    Moves params env tree next ∧ ∀ pindex, found = some pindex →
      pindex ∈ next.mapBlockIndex ∧ next.Usable pindex := by
  cases start with
  | some pindex =>
    cases hfind
    exact ⟨.refl, hstart⟩
  | none =>
    have hsearch := findMostWorkChain_search env hgrown hfind
    refine ⟨hsearch.moves, fun pindex hpidx => ?_⟩
    obtain ⟨hcand, huse, -⟩ := hsearch.chosen pindex hpidx
    exact ⟨(hgrown.moves hsearch.moves).candidates pindex hcand, huse⟩

theorem mostWork_tip (hgrown : tree.Grown params)
    (hfind : tree.mostWork params start = .ok (found, next)) : next.tip = tree.tip := by
  cases start with
  | some pindex =>
    cases hfind
    rfl
  | none => exact (findMostWorkChain_search ⟨fun _ => .connected, fun _ => true⟩ hgrown hfind).tip

theorem activateBestChain_moves {rounds : ℕ} {result : Activation} (hgrown : tree.Grown params)
    (hstart : ∀ pindex, start = some pindex → pindex ∈ tree.mapBlockIndex ∧ tree.Usable pindex)
    (hact : activateBestChain params env rounds start tree = .ok (result, next)) :
    Moves params env tree next := by
  induction rounds generalizing start tree with
  | zero =>
    cases hact
    exact .refl
  | succ rounds ih =>
    rw [activateBestChain] at hact
    split at hact
    · cases hact
    · next found hfind =>
      cases hact
      exact (mostWork_moves env hgrown hstart hfind).1
    · next pindex found hfind =>
      obtain ⟨hmoves, hspec⟩ := mostWork_moves env hgrown hstart hfind
      obtain ⟨hknown, huse⟩ := hspec pindex rfl
      have hgrown := hgrown.moves hmoves
      split at hact
      · cases hact
        exact hmoves
      · split at hact
        · cases hact
        · next stepped hstep =>
          cases hact
          exact hmoves.trans (activateBestChainStep_moves hgrown hknown huse hstep).1
        · next stepped hstep =>
          have hmore := (activateBestChainStep_moves hgrown hknown huse hstep).1
          refine (hmoves.trans hmore).trans (ih (hgrown.moves hmore) ?_ hact)
          nofun
        · next stepped hstep =>
          obtain ⟨hmore, hkeeps⟩ := activateBestChainStep_moves hgrown hknown huse hstep
          split at hact
          · cases hact
            exact hmoves.trans hmore
          · refine (hmoves.trans hmore).trans (ih (hgrown.moves hmore) (fun other ho => ?_) hact)
            cases ho
            rw [mapBlockIndex_of_moves hmore]
            exact ⟨hknown, hkeeps rfl⟩

/-! ### Invalidating a block -/

/-- The start of `InvalidateBlock` changes only the tip. -/
theorem disconnectBelow_spec (params : TreeParams) (env : ActivateEnv) (pindex : CBlockIndex)
    (tree : BlockTree) :
    ∃ low ∈ tree.tip.ancestors, Moves params env tree { tree with tip := low } ∧
      (disconnectBelow env pindex tree.tip tree = .error { tree with tip := low } ∨
        pindex ∉ low.ancestors ∧
          disconnectBelow env pindex tree.tip tree = .ok { tree with tip := low }) := by
  generalize htip : tree.tip = tip
  have hcont : tree.contains pindex = true ↔ pindex ∈ tip.ancestors := by
    rw [contains_iff, htip]
  induction tip generalizing tree with
  | genesis hash time =>
    refine ⟨tree.tip, htip ▸ ancestors_self _, .refl, ?_⟩
    rw [disconnectBelow]
    split
    · exact .inl rfl
    · next hout => exact .inr ⟨by rwa [hcont, ← htip] at hout, rfl⟩
  | child pprev hash time ih =>
    have hstay : tree.tip ∈ (child pprev hash time).ancestors := htip ▸ ancestors_self _
    rw [disconnectBelow, disconnectTip_of_child htip]
    by_cases hin : tree.contains pindex = true
    · rw [if_pos hin]
      split_ifs with hdisconnects
      · obtain ⟨low, hlow, hmoves, hres⟩ := ih { tree with tip := pprev } rfl contains_iff
        have hmove : Move params env tree { tree with tip := pprev } :=
          .disconnect pprev (by rw [htip]; rfl)
        exact ⟨low, mem_cons_of_mem _ hlow, .head hmove hmoves, hres⟩
      · exact ⟨tree.tip, hstay, .refl, .inl rfl⟩
    · rw [if_neg hin]
      exact ⟨tree.tip, hstay, .refl, .inr ⟨by rwa [hcont, ← htip] at hin, rfl⟩⟩

/-- The blocks `InvalidateBlock` marks as children of the invalid one. -/
def invalidatedAbove (tree : BlockTree) (pindex : CBlockIndex) : List CBlockIndex :=
  if tree.contains pindex then tree.tip.above pindex else []

/-- What `InvalidateBlock` does after disconnecting: the candidates, and the flags from the block
up. -/
structure Invalidated (params : TreeParams) (tree : BlockTree) (marked : List CBlockIndex)
    (pindex : CBlockIndex) (next : BlockTree) : Prop where
  entry : ∀ other, next.entry other =
    let entry := if other ∈ marked then { tree.entry other with failedChild := true }
      else tree.entry other
    if other = pindex then { entry with failedValid := true } else entry
  mapBlockIndex : next.mapBlockIndex = tree.mapBlockIndex
  mapBlocksUnlinked : next.mapBlocksUnlinked = tree.mapBlocksUnlinked
  tip : next.tip = tree.tip
  gFailedBlocks : ∀ other, other ∈ next.gFailedBlocks ↔ other = pindex ∨ other ∈ tree.gFailedBlocks
  candidates : ∀ other, other ∈ next.setBlockIndexCandidates ↔
    other ∈ tree.setBlockIndexCandidates ∧ other ∉ marked ∧ other ≠ pindex ∨
      other ∈ tree.mapBlockIndex ∧ (next.entry other).isValid blockValidTransactions = true ∧
        (next.entry other).nChainTx ≠ 0 ∧ next.less params other next.tip = false

theorem restoreCandidates_keeps (part : BlockTree → β) (hpart : ∀ (tree : BlockTree) candidates,
      part { tree with setBlockIndexCandidates := candidates } = part tree := by intros; rfl) :
    part (tree.restoreCandidates params) = part tree := by
  refine foldl_keeps part fun tree pindex => ?_
  split
  · exact hpart tree _
  · rfl

theorem mem_candidates_restoreCandidates (params : TreeParams) (tree : BlockTree)
    (other : CBlockIndex) :
    other ∈ (tree.restoreCandidates params).setBlockIndexCandidates ↔
      other ∈ tree.setBlockIndexCandidates ∨
        other ∈ tree.mapBlockIndex ∧ (tree.entry other).isValid blockValidTransactions = true ∧
          (tree.entry other).nChainTx ≠ 0 ∧ tree.less params other tree.tip = false := by
  rw [restoreCandidates]
  generalize tree.mapBlockIndex = blocks
  induction blocks generalizing tree with
  | nil => simp
  | cons pindex blocks ih =>
    have hless : ∀ pa pb, (tree.insertCandidate pindex).less params pa pb =
        tree.less params pa pb := fun _ _ => rfl
    rw [foldl_cons, ih]
    split_ifs with hkeep
    · simp only [Bool.and_eq_true, decide_eq_true_eq, Bool.not_eq_true'] at hkeep
      simp only [insertCandidate_setBlockIndexCandidates, insertCandidate_entry,
        insertCandidate_tip, hless, mem_insert_iff]
      by_cases hsame : other = pindex
      · subst hsame
        simp [hkeep]
      · simp [hsame]
    · simp only [Bool.and_eq_true, decide_eq_true_eq, Bool.not_eq_true'] at hkeep
      by_cases hsame : other = pindex
      · subst hsame
        simp only [← and_assoc, hkeep, and_false]
      · simp [hsame]

/-- The walk of `InvalidateBlock` over the blocks above. -/
def walkedOver (tree : BlockTree) (blocks : List CBlockIndex) : BlockTree :=
  blocks.foldl (fun tree walk => (tree.markFailedChild walk).eraseCandidate walk) tree

theorem walkedOver_keeps (part : BlockTree → β) (hpart : ∀ (tree : BlockTree) entry candidates,
      part { tree with entry := entry, setBlockIndexCandidates := candidates } = part tree := by
        intros; rfl) {blocks : List CBlockIndex} :
    part (tree.walkedOver blocks) = part tree :=
  foldl_keeps part fun tree _ => hpart tree _ _

theorem invalidated_walkedOver (params : TreeParams) (tree : BlockTree)
    (marked : List CBlockIndex) (pindex : CBlockIndex) :
    Invalidated params tree marked pindex
      (((tree.walkedOver marked).invalidBlockFound params pindex).restoreCandidates params) := by
  have hwalked : ∀ other, (tree.walkedOver marked).entry other =
      if other ∈ marked then { tree.entry other with failedChild := true }
      else tree.entry other := by
    refine entry_foldl_mark (fun tree pindex other => ?_) _ _
    exact entry_markFailedChild tree pindex other
  have hcands : ∀ other, other ∈ (tree.walkedOver marked).setBlockIndexCandidates ↔
      other ∈ tree.setBlockIndexCandidates ∧ other ∉ marked :=
    mem_candidates_foldl_erase (fun _ _ => rfl) _ _
  refine ⟨fun other => ?_, ?_, ?_, ?_, fun other => ?_, fun other => ?_⟩
  · rw [restoreCandidates_keeps entry, entry_invalid, hwalked]
  · rw [restoreCandidates_keeps mapBlockIndex, invalidBlockFound_keeps mapBlockIndex,
      walkedOver_keeps mapBlockIndex]
  · rw [restoreCandidates_keeps mapBlocksUnlinked, invalidBlockFound_keeps mapBlocksUnlinked,
      walkedOver_keeps mapBlocksUnlinked]
  · rw [restoreCandidates_keeps tip, invalidBlockFound_keeps tip, walkedOver_keeps tip]
  · rw [restoreCandidates_keeps gFailedBlocks, mem_gFailedBlocks_invalid,
      walkedOver_keeps gFailedBlocks]
  · rw [mem_candidates_restoreCandidates, mem_candidates_invalid, hcands, and_assoc,
      restoreCandidates_keeps entry,
      restoreCandidates_keeps fun tree => tree.less params other tree.tip,
      invalidBlockFound_keeps mapBlockIndex, walkedOver_keeps mapBlockIndex]

/-- `InvalidateBlock` stops while it disconnects, or marks the block. -/
theorem invalidateBlock_spec (params : TreeParams) (env : ActivateEnv) (tree : BlockTree)
    (pindex : CBlockIndex) :
    ∃ low ∈ tree.tip.ancestors, Moves params env tree { tree with tip := low } ∧
      ((tree.invalidateBlock params env pindex).2 = { tree with tip := low } ∨
        pindex ∉ low.ancestors ∧
          Invalidated params { tree with tip := low } (tree.invalidatedAbove pindex) pindex
            (tree.invalidateBlock params env pindex).2) := by
  obtain ⟨low, hlow, hmoves, hres⟩ := disconnectBelow_spec params env pindex tree
  refine ⟨low, hlow, hmoves, hres.imp (fun herror => ?_) fun ⟨hout, hok⟩ => ⟨hout, ?_⟩⟩
  · rw [invalidateBlock, herror]
  · have hwalked : (tree.invalidateBlock params env pindex).2 =
        ((walkedOver { tree with tip := low } (tree.invalidatedAbove pindex)).invalidBlockFound
          params pindex).restoreCandidates params := by
      rw [invalidateBlock, hok, invalidatedAbove]
      cases tree.contains pindex <;> rfl
    rw [hwalked]
    exact invalidated_walkedOver params _ _ pindex

theorem Grown.invalidated {marked : List CBlockIndex} (hgrown : tree.Grown params)
    (hknown : pindex ∈ tree.mapBlockIndex) (hout : pindex ∉ tree.tip.ancestors)
    (hmark : ∀ other ∈ marked, pindex ∈ other.ancestors)
    (hinval : Invalidated params tree marked pindex next) : next.Grown params := by
  refine hgrown.of_map_eq hinval.mapBlockIndex ?_ ?_ ?_ ?_ ?_
  · rw [hinval.tip]
    exact hgrown.tip
  · intro other ho
    rcases (hinval.candidates other).1 ho with ⟨hold, -⟩ | ⟨hmap, -⟩
    · exact hgrown.candidates other hold
    · exact hmap
  · rw [hinval.mapBlocksUnlinked]
    exact hgrown.unlinked
  · intro other ho
    rcases (hinval.gFailedBlocks other).1 ho with rfl | hold
    · exact hknown
    · exact hgrown.failed other hold
  · intro other ho
    rw [hinval.tip] at ho
    rw [hinval.entry, if_neg, if_neg]
    · exact hgrown.usable other ho
    · exact fun hmem => hout (ancestors_trans (hmark other hmem) ho)
    · rintro rfl
      exact hout ho

theorem mem_ancestors_of_invalidatedAbove (ho : other ∈ tree.invalidatedAbove pindex) :
    pindex ∈ other.ancestors := by
  rw [invalidatedAbove] at ho
  split_ifs at ho with hcont
  · exact ((mem_above_iff (contains_iff.1 hcont)).1 ho).2.1
  · cases ho

theorem Grown.invalidateBlock (hgrown : tree.Grown params) (env : ActivateEnv)
    (hknown : pindex ∈ tree.mapBlockIndex) :
    (tree.invalidateBlock params env pindex).2.Grown params := by
  obtain ⟨low, hlow, hmoves, hstopped | ⟨hout, hinval⟩⟩ :=
    invalidateBlock_spec params env tree pindex
  · rw [hstopped]
    exact hgrown.moves hmoves
  · exact (hgrown.moves hmoves).invalidated hknown hout
      (fun other ho => mem_ancestors_of_invalidatedAbove ho) hinval

/-! ### Calls -/

/-- What a call does that does not fail an assertion. -/
inductive CallStep (params : TreeParams) (tree : BlockTree) : TreeCall → BlockTree → Prop
  | header (block : CBlockHeader) (checks : HeaderChecks) (result : Option CBlockIndex)
      (next : BlockTree) (hstep : HeaderStep params tree block result next) :
      CallStep params tree (.acceptBlockHeader block checks) next
  | refused (arrival : BlockArrival) (next : BlockTree)
      (hstep : HeaderStep params tree arrival.header none next) :
      CallStep params tree (.acceptBlock arrival) next
  | block (arrival : BlockArrival) (pindex : CBlockIndex) (mid next : BlockTree)
      (hheader : HeaderStep params tree arrival.header (some pindex) mid)
      (hbody : BodyStep params arrival mid pindex next) :
      CallStep params tree (.acceptBlock arrival) next
  | activate (env : ActivateEnv) (rounds : ℕ) (next : BlockTree)
      (hmoves : Moves params env tree next) :
      CallStep params tree (.activateBestChain env rounds) next
  | invalidate (env : ActivateEnv) (hash : Uint256) (pindex : CBlockIndex)
      (hfind : tree.find hash = some pindex) :
      CallStep params tree (.invalidateBlock env hash) (tree.invalidateBlock params env pindex).2
  | invalidateUnknown (env : ActivateEnv) (hash : Uint256) :
      CallStep params tree (.invalidateBlock env hash) tree
  | reset (hash : Uint256) (pindex : CBlockIndex) (hfind : tree.find hash = some pindex) :
      CallStep params tree (.resetBlockFailureFlags hash)
        (tree.resetBlockFailureFlags params pindex)
  | resetUnknown (hash : Uint256) : CallStep params tree (.resetBlockFailureFlags hash) tree

theorem exists_of_map_snd {ε α : Type*} {call : Except ε (α × β)} {next : β}
    (hmap : call.map Prod.snd = .ok next) : ∃ result, call = .ok (result, next) := by
  cases call with
  | error fault => cases hmap
  | ok value =>
    cases hmap
    exact ⟨value.1, rfl⟩

theorem call_step {call : TreeCall} (hgrown : tree.Grown params)
    (hcall : tree.call params call = .ok next) :
    CallStep params tree call next := by
  cases call with
  | acceptBlockHeader block checks =>
    obtain ⟨result, hacc⟩ := exists_of_map_snd hcall
    exact .header block checks _ next (acceptBlockHeader_step hgrown hacc)
  | acceptBlock arrival =>
    obtain ⟨result, hacc⟩ := exists_of_map_snd hcall
    rcases acceptBlock_step hgrown hacc with hrefused | ⟨pindex, mid, hhead, hbody⟩
    · exact .refused arrival next hrefused
    · exact .block arrival pindex mid next hhead hbody
  | activateBestChain env rounds =>
    obtain ⟨result, hact⟩ := exists_of_map_snd hcall
    refine .activate env rounds next (activateBestChain_moves hgrown ?_ hact)
    nofun
  | invalidateBlock env hash =>
    rw [call] at hcall
    split at hcall
    · cases hcall
      exact .invalidateUnknown env hash
    · next pindex hfind =>
      cases hcall
      exact .invalidate env hash pindex hfind
  | resetBlockFailureFlags hash =>
    rw [call] at hcall
    split at hcall
    · cases hcall
      exact .resetUnknown hash
    · next pindex hfind =>
      cases hcall
      exact .reset hash pindex hfind

theorem grown_initial (params : TreeParams) (nTime : UInt32) (nTx : ℕ) :
    (initial params nTime nTx).Grown params := by
  have hgen : ∀ pindex, pindex ∈ (initial params nTime nTx).mapBlockIndex →
      pindex = .genesis params.hashGenesisBlock nTime := fun pindex => mem_singleton.1
  refine ⟨?_, ?_, ?_, mem_singleton.2 rfl, fun _ hmem => hmem, nofun, nofun, ?_⟩
  · intro pindex hknown hno
    rw [hgen pindex hknown]
    rfl
  · intro pindex hknown pprev hprev
    rw [hgen pindex hknown] at hprev
    cases hprev
  · intro pindex hknown other ho hhash
    rw [hgen pindex hknown, hgen other ho]
  · intro other ho
    rw [mem_singleton.1 ho, initial]
    simp [BlockEntry.failed]

end BlockTree

end Catoshi
