/-
What holds of the block tree between calls, and how each step keeps it.
-/
import Catoshi.BlockIndexLinks
import Catoshi.BlockIndexCheck
import Catoshi.InvalidHeaders

namespace Catoshi

open CBlockIndex List

namespace BlockTree

/-- The invariant of the block tree. The candidates are complete above `ref`: the tip between
calls, the best tip so far within `ActivateBestChain`. -/
structure Indexed (params : TreeParams) (tree : BlockTree) (ref : CBlockIndex) : Prop where
  grown : tree.Grown params
  sound : tree.FailedSound
  closed : tree.ScriptsClosed
  nodup : tree.mapBlockIndex.Nodup
  linking : tree.Linking []
  ranked : tree.Ranked params ref
  entries : ∀ pindex ∈ tree.mapBlockIndex, (tree.entry pindex).Ok
  work : ∀ pindex ∈ tree.mapBlockIndex, ∀ pprev, pindex.pprev = some pprev →
    (tree.entry pprev).nChainWork < (tree.entry pindex).nChainWork
  flags : ∀ pindex ∈ tree.mapBlockIndex, (tree.entry pindex).failed = true → ¬ tree.Clean pindex
  refKnown : ref ∈ tree.mapBlockIndex
  refUsable : tree.Usable ref
  refScripts : ∀ other ∈ ref.ancestors, other.pprev ≠ none →
    blockValidScripts ≤ (tree.entry other).nValidity

section facts

variable {params : TreeParams} {tree : BlockTree} {ref pindex other : CBlockIndex}

section

variable (hidx : tree.Indexed params ref)

include hidx

omit hidx in
theorem Usable.clean (huse : tree.Usable pindex) : tree.Clean pindex := by
  intro other ho
  have hvalid := (huse other ho).1
  rw [BlockEntry.failed, Bool.or_eq_false_iff] at hvalid
  exact hvalid.1

section

variable (hin : pindex ∈ tree.mapBlockIndex)

include hin

theorem Indexed.linked_below (hlink : (tree.entry pindex).nChainTx ≠ 0)
    (ho : other ∈ pindex.ancestors) :
    (tree.entry other).nChainTx ≠ 0 ∧ (tree.entry other).haveData = true := by
  obtain ⟨hknown, hbelow⟩ := hidx.linking.linked_below hin hlink ho
  have harrived := (hidx.linking.chainTx other hknown not_mem_nil).1 hbelow
  exact ⟨hbelow, (hidx.entries other hknown).data.2 harrived.1⟩

/-- A block is linked if its whole chain has data. -/
theorem Indexed.linked_of_data
    (hdata : ∀ other ∈ pindex.ancestors, (tree.entry other).haveData = true) :
    (tree.entry pindex).nChainTx ≠ 0 := by
  induction pindex with
  | genesis hash time =>
    refine (hidx.linking.chainTx _ hin not_mem_nil).2 ⟨?_, nofun⟩
    exact (hidx.entries _ hin).data.1 (hdata _ (ancestors_self _))
  | child pprev hash time ih =>
    have hprev := hidx.grown.pprev _ hin pprev rfl
    have hbelow := ih hprev (List.forall_mem_cons.1 hdata).2
    refine (hidx.linking.chainTx _ hin not_mem_nil).2 ⟨?_, fun low hlow => ?_⟩
    · exact (hidx.entries _ hin).data.1 (hdata _ (ancestors_self _))
    · cases hlow
      exact hbelow

theorem Indexed.linked_of_usable (huse : tree.Usable pindex) :
    (tree.entry pindex).nChainTx ≠ 0 :=
  hidx.linked_of_data hin fun other ho => (huse other ho).2

omit hin in
/-- The reference is always a candidate. -/
theorem Indexed.ref_candidate :
    ref ∈ tree.setBlockIndexCandidates :=
  hidx.ranked.complete ref hidx.refKnown
    (hidx.linked_of_usable hidx.refKnown hidx.refUsable) hidx.refUsable.clean le_rfl

/-- A block ranks above every block below it. -/
theorem Indexed.rank_lt_of_pprev (hprev : pindex.pprev = some other) :
    tree.rank params other < tree.rank params pindex := by
  rw [rank, rank, Prod.Lex.toLex_lt_toLex]
  exact .inl (hidx.work pindex hin other hprev)

theorem Indexed.rank_le_of_mem (ho : other ∈ pindex.ancestors) :
    tree.rank params other ≤ tree.rank params pindex := by
  induction pindex, ho using ancestors_induction with
  | self => exact le_rfl
  | child pprev hash time hbelow ih =>
    exact (ih (hidx.grown.pprev _ hin pprev rfl)).trans (hidx.rank_lt_of_pprev hin rfl).le

end

end

/-- Between calls the queue for linking is empty. -/
theorem Indexed.queueing (hidx : tree.Indexed params tree.tip) :
    tree.Queueing params [] :=
  ⟨hidx.linking, hidx.ranked, hidx.linked_of_usable hidx.grown.tip hidx.grown.usable, hidx.entries⟩

end facts

/-- What steps leave that only mark blocks or move the tip. -/
structure Marked (tree next : BlockTree) : Prop where
  mapBlockIndex : next.mapBlockIndex = tree.mapBlockIndex
  mapBlocksUnlinked : next.mapBlocksUnlinked = tree.mapBlocksUnlinked
  nTx : ∀ pindex, (next.entry pindex).nTx = (tree.entry pindex).nTx
  nChainTx : ∀ pindex, (next.entry pindex).nChainTx = (tree.entry pindex).nChainTx
  nChainWork : ∀ pindex, (next.entry pindex).nChainWork = (tree.entry pindex).nChainWork
  nSequenceId : ∀ pindex, (next.entry pindex).nSequenceId = (tree.entry pindex).nSequenceId

section marked

variable {params : TreeParams} {tree next : BlockTree} {ref : CBlockIndex}

theorem Marked.rank (hmarked : Marked tree next) (pindex : CBlockIndex) :
    next.rank params pindex = tree.rank params pindex :=
  rank_congr (hmarked.nChainWork pindex) (hmarked.nSequenceId pindex)

theorem Marked.linking (hmarked : Marked tree next) (hlinking : tree.Linking []) :
    next.Linking [] := by
  have harrived : ∀ pindex, next.Arrived pindex ↔ tree.Arrived pindex := by
    intro pindex
    simp only [Arrived, hmarked.nTx, hmarked.nChainTx]
  have htotal : ∀ pindex, next.totalTx pindex = tree.totalTx pindex := fun pindex =>
    totalTx_congr fun other _ => hmarked.nTx other
  constructor
  · intro pindex hin hout
    rw [hmarked.mapBlockIndex] at hin
    rw [hmarked.nChainTx, harrived]
    exact hlinking.chainTx pindex hin hout
  · simp
  · intro pprev pindex
    rw [hmarked.mapBlocksUnlinked, hmarked.mapBlockIndex, hmarked.nTx, hmarked.nChainTx]
    exact hlinking.unlinked pprev pindex
  · exact nodup_nil
  · rw [hmarked.mapBlocksUnlinked]
    exact hlinking.nodupUnlinked
  · rw [hmarked.mapBlockIndex]
    exact hlinking.known
  · simp only [hmarked.mapBlockIndex, hmarked.nChainTx, htotal]
    exact hlinking.total
  · simp only [hmarked.mapBlockIndex, htotal]
    exact hlinking.small

/-- Marking blocks or moving the tip keeps the invariant. -/
theorem Indexed.of_marked {ref' : CBlockIndex} (hidx : tree.Indexed params ref)
    (hmarked : Marked tree next) (hgrown : next.Grown params) (hsound : next.FailedSound)
    (hclose : next.ScriptsClosed)
    (hentries : ∀ pindex ∈ tree.mapBlockIndex, (next.entry pindex).Ok)
    (hflags : ∀ pindex ∈ tree.mapBlockIndex, (next.entry pindex).failed = true →
      ¬ next.Clean pindex)
    (hranked : next.Ranked params ref') (hrefKnown : ref' ∈ tree.mapBlockIndex)
    (hrefUsable : next.Usable ref')
    (hrefScripts : ∀ other ∈ ref'.ancestors, other.pprev ≠ none →
      blockValidScripts ≤ (next.entry other).nValidity) : next.Indexed params ref' where
  grown := hgrown
  sound := hsound
  closed := hclose
  nodup := hmarked.mapBlockIndex ▸ hidx.nodup
  linking := hmarked.linking hidx.linking
  ranked := hranked
  entries := hmarked.mapBlockIndex ▸ hentries
  work := by
    simp only [hmarked.mapBlockIndex, hmarked.nChainWork]
    exact hidx.work
  flags := hmarked.mapBlockIndex ▸ hflags
  refKnown := hmarked.mapBlockIndex ▸ hrefKnown
  refUsable := hrefUsable
  refScripts := hrefScripts

end marked

end BlockTree

namespace BlockTree

/-! ### Headers and blocks -/

section arrivals

variable {params : TreeParams} {tree next : BlockTree} {ref pindex : CBlockIndex}

theorem Clean.of_grows (hgrows : ∀ other ∈ pindex.ancestors, (tree.entry other).failedValid = true →
      (next.entry other).failedValid = true) (hclean : next.Clean pindex) : tree.Clean pindex := by
  intro other ho
  by_contra hmark
  have hbad := hgrows other ho (by simpa using hmark)
  rw [hclean other ho] at hbad
  cases hbad

variable {block : CBlockHeader}

theorem Indexed.grow (hidx : tree.Indexed params ref) {pprev : CBlockIndex}
    (hnew : tree.find block.hash = none) (hprev : pprev ∈ tree.mapBlockIndex)
    (hgrown : (tree.grow params pprev block).Grown params)
    (hsound : (tree.grow params pprev block).FailedSound)
    (hclose : (tree.grow params pprev block).ScriptsClosed) :
    (tree.grow params pprev block).Indexed params ref := by
  have hout : child pprev block.hash block.nTime ∉ tree.mapBlockIndex := not_mem_of_find_none hnew
  have hent : ∀ other ∈ tree.mapBlockIndex,
      (tree.grow params pprev block).entry other = tree.entry other := fun other ho =>
    entry_grow_of_mem hnew ho
  have hbelow : ∀ other ∈ tree.mapBlockIndex, ∀ low ∈ other.ancestors,
      (tree.grow params pprev block).entry low = tree.entry low := fun other ho low hlow =>
    hent low (hidx.grown.ancestors ho hlow)
  have hrank : ∀ other ∈ tree.mapBlockIndex,
      (tree.grow params pprev block).rank params other = tree.rank params other :=
    fun other ho => rank_congr (by rw [hent other ho]) (by rw [hent other ho])
  have hfresh : (tree.grow params pprev block).entry (.child pprev block.hash block.nTime) =
      tree.newEntry params pprev block.hash := entry_grow_new params tree pprev block
  refine ⟨hgrown, hsound, hclose, List.nodup_cons.2 ⟨hout, hidx.nodup⟩,
    hidx.linking.grow hidx.grown hnew hprev, ⟨?_, ?_, ?_⟩, ?_, ?_, ?_,
    mem_cons_of_mem _ hidx.refKnown, ?_, ?_⟩
  · intro other ho
    rw [hent other (hidx.grown.candidates other ho)]
    exact hidx.ranked.linked other ho
  · intro other ho
    change (tree.grow params pprev block).rank params tree.tip ≤ _
    rw [hrank tree.tip hidx.grown.tip, hrank other (hidx.grown.candidates other ho)]
    exact hidx.ranked.notWorse other ho
  · intro other ho hlink hclean hgood
    rcases List.mem_cons.1 ho with rfl | hold
    · rw [hfresh] at hlink
      exact absurd rfl hlink
    · rw [hent other hold] at hlink
      rw [hrank other hold, hrank ref hidx.refKnown] at hgood
      refine hidx.ranked.complete other hold hlink ?_ hgood
      exact hclean.of_grows fun low hlow hmark => by rwa [hbelow other hold low hlow]
  · intro other ho
    rcases List.mem_cons.1 ho with rfl | hold
    · rw [hfresh]
      exact ⟨le_rfl, by simp [newEntry, BlockEntry.new],
        by simp [newEntry, BlockEntry.new, blockValidTransactions, blockValidTree],
        by simp [newEntry, BlockEntry.new, blockValidTransactions, blockValidTree], nofun,
        fun _ => le_rfl⟩
    · rw [hent other hold]
      exact hidx.entries other hold
  · intro other ho low hlow
    rcases List.mem_cons.1 ho with rfl | hold
    · cases hlow
      rw [hfresh, hent pprev hprev]
      exact Nat.lt_add_of_pos_right (params.getBlockProof_pos block.hash)
    · rw [hent other hold, hent low (hidx.grown.pprev other hold low hlow)]
      exact hidx.work other hold low hlow
  · intro other ho hmark hclean
    rcases List.mem_cons.1 ho with rfl | hold
    · rw [hfresh] at hmark
      cases hmark
    · rw [hent other hold] at hmark
      refine hidx.flags other hold hmark ?_
      exact hclean.of_grows fun low hlow hmark => by rwa [hbelow other hold low hlow]
  · intro low hlow
    rw [hbelow ref hidx.refKnown low hlow]
    exact hidx.refUsable low hlow
  · intro low hlow hroot
    rw [hbelow ref hidx.refKnown low hlow]
    exact hidx.refScripts low hlow hroot

/-- Steps that only set or clear failure flags. -/
structure Reflagged (tree next : BlockTree) : Prop where
  mapBlockIndex : next.mapBlockIndex = tree.mapBlockIndex
  mapBlocksUnlinked : next.mapBlocksUnlinked = tree.mapBlocksUnlinked
  entry : ∀ pindex, next.entry pindex = { tree.entry pindex with
    failedValid := (next.entry pindex).failedValid
    failedChild := (next.entry pindex).failedChild }

theorem Reflagged.marked (hreflag : Reflagged tree next) : Marked tree next where
  mapBlockIndex := hreflag.mapBlockIndex
  mapBlocksUnlinked := hreflag.mapBlocksUnlinked
  nTx := fun pindex => by rw [hreflag.entry]
  nChainTx := fun pindex => by rw [hreflag.entry]
  nChainWork := fun pindex => by rw [hreflag.entry]
  nSequenceId := fun pindex => by rw [hreflag.entry]

structure Flagged (tree next : BlockTree) : Prop extends Reflagged tree next where
  grows : ∀ pindex, (tree.entry pindex).failedValid = true → (next.entry pindex).failedValid = true

/-- Failure flags keep the invariant if each stands above an invalid block and only unclean
candidates go. -/
theorem Indexed.of_flagged (hidx : tree.Indexed params ref) (hflag : Flagged tree next)
    (hgrown : next.Grown params) (hsound : next.FailedSound) (hclose : next.ScriptsClosed)
    (hflags : ∀ pindex ∈ tree.mapBlockIndex, (tree.entry pindex).failed = false →
      (next.entry pindex).failed = true → ¬ next.Clean pindex)
    (htip : next.tip = tree.tip)
    (hcands : ∀ pindex ∈ next.setBlockIndexCandidates, pindex ∈ tree.setBlockIndexCandidates)
    (hdrop : ∀ pindex ∈ tree.setBlockIndexCandidates, next.Clean pindex →
      pindex ∈ next.setBlockIndexCandidates)
    (huse : next.Usable ref) : next.Indexed params ref := by
  have hrank : ∀ pindex, next.rank params pindex = tree.rank params pindex := hflag.marked.rank
  have hclean : ∀ pindex, next.Clean pindex → tree.Clean pindex := fun pindex hclean =>
    hclean.of_grows fun other _ => hflag.grows other
  refine hidx.of_marked hflag.marked hgrown hsound hclose ?_ ?_ ⟨?_, ?_, ?_⟩ hidx.refKnown huse ?_
  · intro pindex hin
    have hok := hidx.entries pindex hin
    rw [hflag.entry]
    exact ⟨hok.level, hok.data, hok.transactions, hok.scripts, hok.undo, hok.order⟩
  · intro pindex hin hmark
    cases hpre : (tree.entry pindex).failed with
    | false => exact hflags pindex hin hpre hmark
    | true => exact fun hnow => hidx.flags pindex hin hpre (hclean pindex hnow)
  · intro pindex hmem
    rw [hflag.marked.nChainTx]
    exact hidx.ranked.linked pindex (hcands pindex hmem)
  · intro pindex hmem
    rw [htip, hrank, hrank]
    exact hidx.ranked.notWorse pindex (hcands pindex hmem)
  · intro pindex hin hlink hnow hgood
    rw [hflag.mapBlockIndex] at hin
    rw [hflag.marked.nChainTx] at hlink
    rw [hrank, hrank] at hgood
    exact hdrop pindex (hidx.ranked.complete pindex hin hlink (hclean pindex hnow) hgood) hnow
  · intro other ho hroot
    rw [hflag.entry]
    exact hidx.refScripts other ho hroot

/-- A usable block does not stand on a failed one. -/
theorem Usable.not_above {low high : CBlockIndex} (huse : tree.Usable ref)
    (hfail : (tree.entry low).failed = true) (habove : low ∈ high.ancestors) :
    high ∉ ref.ancestors := by
  intro hhigh
  have hvalid := (huse low (ancestors_trans habove hhigh)).1
  rw [hfail] at hvalid
  cases hvalid

theorem Indexed.headerStep (hidx : tree.Indexed params ref) {result : Option CBlockIndex}
    (hstep : HeaderStep params tree block result next) : next.Indexed params ref := by
  have hgrown := hidx.grown.headerStep hstep
  have hsound := hidx.sound.headerStep hidx.grown hstep
  have hclose := hidx.closed.headerStep hidx.grown hstep
  cases hstep with
  | refused | known => exact hidx
  | added pprev hnew hprev hvalid hscrs =>
    exact hidx.grow hnew (mem_of_find hprev).1 hgrown hsound hclose
  | walked pprev failedit hprev hfail hmem hvalid =>
    have hent := entry_invalidWalk tree pprev failedit
    have habove : ∀ other ∈ pprev.above failedit, failedit ∈ other.ancestors :=
      fun other ho => ((mem_above_iff hmem).1 ho).2.1
    refine hidx.of_flagged ⟨⟨?_, ?_, fun other => ?_⟩, fun other hmark => ?_⟩ hgrown hsound
      hclose ?_ ?_ ?_ ?_ ?_
    · exact invalidWalk_keeps mapBlockIndex
    · exact invalidWalk_keeps mapBlocksUnlinked
    · rw [hent]
      split <;> rfl
    · rw [hent]
      split <;> exact hmark
    · intro other ho hpre hmark hclean
      by_cases hmarked : other ∈ pprev.above failedit
      · have hbad := hclean failedit (habove other hmarked)
        rw [hent] at hbad
        split at hbad
        all_goals
          rw [hvalid] at hbad
          cases hbad
      · rw [hent, if_neg hmarked, hpre] at hmark
        cases hmark
    · exact invalidWalk_keeps BlockTree.tip
    · rw [invalidWalk_keeps setBlockIndexCandidates]
      exact fun _ hmem => hmem
    · rw [invalidWalk_keeps setBlockIndexCandidates]
      exact fun _ hmem _ => hmem
    · intro other ho
      rw [hent, if_neg]
      · exact hidx.refUsable other ho
      · intro hmarked
        exact hidx.refUsable.not_above (failed_of_failedValid hvalid) (habove other hmarked) ho

/-- Bodies are stored only on blocks linked or not marked failed. -/
def Orderly (tree : BlockTree) (pindex : CBlockIndex) : Prop :=
  ∀ pprev, pindex.pprev = some pprev → (tree.entry pprev).nChainTx = 0 →
    (tree.entry pprev).failed = false

theorem Indexed.bodyStep {arrival : BlockArrival} (hidx : tree.Indexed params tree.tip)
    (hin : pindex ∈ tree.mapBlockIndex) (hvalid : (tree.entry pindex).failed = false)
    (hfits : arrival.blockChecks = .ok () → (tree.entry pindex).haveData = false →
      tree.Orderly pindex ∧ tree.Countable pindex arrival.nTx)
    (hstep : BodyStep params arrival tree pindex next) : next.Indexed params next.tip := by
  have hgrown := hidx.grown.bodyStep hin hstep
  have hsound := hidx.sound.bodyStep hstep
  have hclose := hidx.closed.bodyStep hstep
  cases hstep with
  | same => exact hidx
  | refused reject hchecks hintact hdata =>
    have hent := entry_markFailedValid tree pindex
    refine hidx.of_flagged ⟨⟨rfl, rfl, fun other => ?_⟩, fun other hmark => ?_⟩ hgrown hsound
      hclose ?_ rfl (fun _ hmem => hmem) (fun _ hmem _ => hmem) hgrown.usable
    · rw [hent]
      split <;> rfl
    · rw [hent]
      split
      · rfl
      · exact hmark
    · intro other ho hpre hmark hclean
      by_cases hsame : other = pindex
      · have hbad := hclean other (ancestors_self _)
        rw [hent, if_pos hsame] at hbad
        cases hbad
      · rw [hent, if_neg hsame, hpre] at hmark
        cases hmark
  | received hchecks hpos hdata =>
    obtain ⟨horderly, hcount⟩ := hfits hchecks hdata
    have hqueue := hidx.queueing.receivedBlockTransactions hin hpos hvalid hdata hcount horderly
    have hlink := (queued_received params tree pindex arrival.nTx).linked
    have hsame : ∀ other, ((tree.receivedBlockTransactions params pindex arrival.nTx).entry
          other).nChainWork = (tree.entry other).nChainWork ∧
        ((tree.receivedBlockTransactions params pindex arrival.nTx).entry other).failed =
          (tree.entry other).failed ∧
        ((tree.receivedBlockTransactions params pindex arrival.nTx).entry other).failedValid =
          (tree.entry other).failedValid := by
      intro other
      rw [hlink.entry, entry_stored]
      split <;> exact ⟨rfl, rfl, rfl⟩
    refine ⟨hgrown, hsound, hclose, ?_, hqueue.linking, hqueue.ranked, hqueue.entries,
      ?_, ?_, hgrown.tip, hgrown.usable, hclose.tip⟩
    · rw [hlink.mapBlockIndex]
      exact hidx.nodup
    · simp only [hlink.mapBlockIndex, fun other => (hsame other).1]
      exact hidx.work
    · simp only [hlink.mapBlockIndex, Clean, fun other => (hsame other).2.1,
        fun other => (hsame other).2.2]
      exact hidx.flags

end arrivals

/-! ### Moving the tip -/

section moving

variable {params : TreeParams} {env : ActivateEnv} {tree next : BlockTree}
  {ref pindex : CBlockIndex}

theorem marked_markScriptsValid (tree : BlockTree) (pindex : CBlockIndex) :
    Marked tree (tree.markScriptsValid pindex) := by
  have hent := entry_markScriptsValid tree pindex
  refine ⟨rfl, rfl, ?_, ?_, ?_, ?_⟩
  all_goals
    intro other
    rw [hent]
    split <;> rfl

theorem markScriptsValid_failed (tree : BlockTree) (pindex other : CBlockIndex) :
    ((tree.markScriptsValid pindex).entry other).failed = (tree.entry other).failed ∧
      ((tree.markScriptsValid pindex).entry other).failedValid =
        (tree.entry other).failedValid := by
  rw [entry_markScriptsValid]
  split <;> exact ⟨rfl, rfl⟩

theorem le_nValidity_markScriptsValid (tree : BlockTree) (pindex other : CBlockIndex) :
    (tree.entry other).nValidity ≤ ((tree.markScriptsValid pindex).entry other).nValidity := by
  rw [entry_markScriptsValid]
  split
  · split
    · exact le_rfl
    · exact le_max_left _ _
  · exact le_rfl

/-- Moving the tip down keeps the candidates. -/
theorem Indexed.disconnect {low : CBlockIndex} (hidx : tree.Indexed params ref)
    (hlow : low ∈ tree.tip.ancestors) (hgrown : { tree with tip := low }.Grown params) :
    { tree with tip := low }.Indexed params ref := by
  refine hidx.of_marked ⟨rfl, rfl, fun _ => rfl, fun _ => rfl, fun _ => rfl, fun _ => rfl⟩
    hgrown hidx.sound (hidx.closed.of_same rfl hlow fun _ => Iff.rfl) hidx.entries
    hidx.flags ⟨hidx.ranked.linked, ?_, hidx.ranked.complete⟩ hidx.refKnown
    hidx.refUsable hidx.refScripts
  intro pindex hmem
  exact (hidx.rank_le_of_mem hidx.grown.tip hlow).trans (hidx.ranked.notWorse pindex hmem)

theorem ok_markScriptsValid (hok : (tree.entry pindex).Ok)
    (hdata : (tree.entry pindex).haveData = true) :
    ((tree.markScriptsValid pindex).entry pindex).Ok := by
  rw [entry_markScriptsValid, if_pos rfl]
  have hnTx := hok.data.1 hdata
  have hhigh : blockValidTransactions ≤ blockValidScripts := by decide
  constructor
  · split
    · exact hok.level
    · exact hok.level.trans (le_max_left _ _)
  · exact hok.data
  · split
    · exact hok.transactions
    · exact iff_of_true (hhigh.trans (le_max_right _ _)) hnTx
  · split
    · exact hok.scripts
    · exact fun _ => le_max_right _ _
  · exact fun _ => hdata
  · exact hok.order

/-- Connecting a block makes a better tip the reference. -/
theorem Indexed.connect (hidx : tree.Indexed params ref) (hmove : Move params env tree next)
    (hin : pindex ∈ tree.mapBlockIndex) (hprev : pindex.pprev = some tree.tip)
    (huse : tree.Usable pindex)
    (hprune : (tree.connectTip pindex).pruneBlockIndexCandidates params = .ok next) :
    ∃ ref', next.Indexed params ref' ∧ (ref' = ref ∨ ref' = pindex) := by
  have hgrown := hidx.grown.move hmove
  have hsound := hidx.sound.move hmove
  have hclose := hidx.closed.move hmove
  have heq := pruneCandidates_eq hprune
  have hent : next.entry = (tree.markScriptsValid pindex).entry := by
    rw [heq]
    rfl
  have htip : next.tip = pindex := by
    rw [heq]
    rfl
  have hmarks := marked_markScriptsValid tree pindex
  have hmarked : Marked tree next := by
    rw [heq]
    exact ⟨rfl, rfl, hmarks.nTx, hmarks.nChainTx, hmarks.nChainWork, hmarks.nSequenceId⟩
  have hrank : ∀ other, next.rank params other = tree.rank params other := hmarked.rank
  have hmem : ∀ other, other ∈ next.setBlockIndexCandidates ↔
      other ∈ tree.setBlockIndexCandidates ∧ tree.rank params pindex ≤ tree.rank params other := by
    intro other
    have hfilter : other ∈ next.setBlockIndexCandidates ↔
        other ∈ tree.setBlockIndexCandidates ∧ next.less params other pindex = false := by
      rw [heq, mem_filter, Bool.not_eq_true']
      rfl
    rw [hfilter, less_eq_false_iff, hrank, hrank]
  have hclean : ∀ other, next.Clean other ↔ tree.Clean other := by
    intro other
    simp only [Clean, hent, fun block => (markScriptsValid_failed tree pindex block).2]
  have hnext : ∀ ref', ref' ∈ tree.mapBlockIndex → tree.rank params ref ≤ tree.rank params ref' →
      tree.rank params pindex ≤ tree.rank params ref' → next.Usable ref' →
      (∀ other ∈ ref'.ancestors, other.pprev ≠ none →
        blockValidScripts ≤ (next.entry other).nValidity) → next.Indexed params ref' := by
    intro ref' hrefKnown hbetter hnotWorse hrefUsable hrefScripts
    refine hidx.of_marked hmarked hgrown hsound hclose ?_ ?_ ⟨?_, ?_, ?_⟩ hrefKnown hrefUsable
      hrefScripts
    · intro other ho
      rw [hent]
      by_cases hsame : other = pindex
      · subst hsame
        exact ok_markScriptsValid (hidx.entries other ho) (huse other (ancestors_self _)).2
      · rw [entry_markScriptsValid, if_neg hsame]
        exact hidx.entries other ho
    · intro other ho hmark
      rw [hclean]
      rw [hent, (markScriptsValid_failed tree pindex other).1] at hmark
      exact hidx.flags other ho hmark
    · intro other ho
      rw [hmarked.nChainTx]
      exact hidx.ranked.linked other ((hmem other).1 ho).1
    · intro other ho
      rw [htip, hrank, hrank]
      exact ((hmem other).1 ho).2
    · intro other ho hlink hgood hrankLe
      rw [hmarked.mapBlockIndex] at ho
      rw [hmarked.nChainTx] at hlink
      rw [hclean] at hgood
      rw [hrank, hrank] at hrankLe
      exact (hmem other).2 ⟨hidx.ranked.complete other ho hlink hgood
        (hbetter.trans hrankLe), hnotWorse.trans hrankLe⟩
  rcases le_total (tree.rank params ref) (tree.rank params pindex) with hbetter | hworse
  · refine ⟨pindex, hnext pindex hin hbetter le_rfl ?_ ?_, .inr rfl⟩
    · exact htip ▸ hgrown.usable
    · exact htip ▸ hclose.tip
  · refine ⟨ref, hnext ref hidx.refKnown le_rfl hworse ?_ fun other ho hroot => ?_, .inl rfl⟩
    · rw [Usable, hent]
      exact usable_markScriptsValid.2 hidx.refUsable
    · rw [hent]
      exact (hidx.refScripts other ho hroot).trans (le_nValidity_markScriptsValid tree pindex other)

/-- Finding a block invalid that was never connected. -/
theorem Indexed.invalid (hidx : tree.Indexed params ref)
    (hmove : Move params env tree (tree.invalidBlockFound params pindex))
    (hprev : pindex.pprev = some tree.tip)
    (hlow : (tree.entry pindex).nValidity < blockValidScripts) :
    (tree.invalidBlockFound params pindex).Indexed params ref := by
  have hent := entry_invalid params tree pindex
  have hroot : pindex.pprev ≠ none := by
    rw [hprev]
    nofun
  have hself : ((tree.invalidBlockFound params pindex).entry pindex).failedValid = true := by
    rw [hent, if_pos rfl]
  refine hidx.of_flagged ⟨⟨?_, ?_, fun other => ?_⟩, fun other hmark => ?_⟩
    (hidx.grown.move hmove) (hidx.sound.move hmove) (hidx.closed.move hmove)
    ?_ ?_ ?_ ?_ ?_
  · exact invalidBlockFound_keeps mapBlockIndex
  · exact invalidBlockFound_keeps mapBlocksUnlinked
  · rw [hent]
    split <;> rfl
  · rw [hent]
    split
    · rfl
    · exact hmark
  · intro other ho hpre hmark hclean
    by_cases hsame : other = pindex
    · have hbad := hclean pindex (hsame ▸ ancestors_self _)
      rw [hself] at hbad
      cases hbad
    · rw [hent, if_neg hsame, hpre] at hmark
      cases hmark
  · exact invalidBlockFound_keeps BlockTree.tip
  · exact fun other ho =>
      ((mem_candidates_invalid params tree pindex other).1 ho).1
  · intro other ho hclean
    refine (mem_candidates_invalid params tree pindex other).2 ⟨ho, fun hsame => ?_⟩
    have hbad := hclean pindex (hsame ▸ ancestors_self _)
    rw [hself] at hbad
    cases hbad
  · intro other ho
    rw [hent, if_neg]
    · exact hidx.refUsable other ho
    · rintro rfl
      exact absurd (hidx.refScripts other ho hroot) (not_le.2 hlow)

/-- Dropping a candidate above a failed block. -/
theorem Indexed.discard {pindexNew pindexTest : CBlockIndex} (hidx : tree.Indexed params ref)
    (hmove : Move params env tree (tree.removeChain pindexNew pindexTest true))
    (hcand : pindexNew ∈ tree.setBlockIndexCandidates)
    (hmem : pindexTest ∈ pindexNew.ancestors) (hfail : (tree.entry pindexTest).failed = true) :
    (tree.removeChain pindexNew pindexTest true).Indexed params ref := by
  have hent := entry_removeChain_failed tree pindexNew pindexTest
  have hin := hidx.grown.ancestors (hidx.grown.candidates pindexNew hcand) hmem
  have hvalid : ∀ other, ((tree.removeChain pindexNew pindexTest true).entry other).failedValid =
      (tree.entry other).failedValid := by
    intro other
    rw [hent]
    split <;> rfl
  have habove : ∀ other ∈ pindexNew.above pindexTest, pindexTest ∈ other.ancestors :=
    fun other ho => ((mem_above_iff hmem).1 ho).2.1
  -- whatever stands on the failed block is not clean
  have hunclean : ∀ other, pindexTest ∈ other.ancestors →
      ¬ (tree.removeChain pindexNew pindexTest true).Clean other := by
    intro other hbelow hclean
    refine hidx.flags pindexTest hin hfail fun low hlow => ?_
    rw [← hvalid]
    exact hclean low (ancestors_trans hlow hbelow)
  refine hidx.of_flagged ⟨⟨?_, ?_, fun other => ?_⟩, fun other hmark => ?_⟩
    (hidx.grown.move hmove) (hidx.sound.move hmove) (hidx.closed.move hmove)
    ?_ ?_ ?_ ?_ ?_
  · exact removeChain_keeps mapBlockIndex
  · refine foldl_keeps mapBlocksUnlinked fun tree other => ?_
    rfl
  · rw [hent]
    split <;> rfl
  · rw [hvalid]
    exact hmark
  · intro other ho hpre hmark
    by_cases hmarked : other ∈ pindexNew.above pindexTest
    · exact hunclean other (habove other hmarked)
    · rw [hent, if_neg hmarked, hpre] at hmark
      cases hmark
  · exact removeChain_keeps BlockTree.tip
  · exact fun other ho => ((mem_candidates_removeChain tree _ _ _ _).1 ho).1
  · intro other ho hclean
    refine (mem_candidates_removeChain tree _ _ _ _).2 ⟨ho, fun hmarked => ?_, fun hsame => ?_⟩
    · exact hunclean other (habove other hmarked) hclean
    · exact hunclean other (hsame ▸ ancestors_self _) hclean
  · intro other ho
    rw [hent, if_neg]
    · exact hidx.refUsable other ho
    · intro hmarked
      exact hidx.refUsable.not_above hfail (habove other hmarked) ho

end moving

end BlockTree

end Catoshi
