/-
The assertions of `CheckBlockIndex` along runs, with the one exception the source leaves open: a
body stored on a failed unlinked block is never linked.
-/
import Catoshi.BlockIndexRuns

namespace Catoshi

open List

theorem CBlockIndex.length_ancestors (pindex : CBlockIndex) :
    pindex.nHeight + 1 = pindex.ancestors.length := by
  induction pindex with
  | genesis hash time => rfl
  | child pprev hash time ih => rw [ancestors, length_cons, ← ih, nHeight]

theorem CBlockIndex.exists_pskip {pindex : CBlockIndex} (hhigh : ¬ pindex.nHeight < 2) :
    ∃ pskip ∈ pindex.pskip, pskip.nHeight < pindex.nHeight := by
  cases pindex with
  | genesis hash time => exact absurd (by decide : 0 < 2) hhigh
  | child pprev hash time =>
    have hlt : getSkipHeight (pprev.nHeight + 1) < pprev.nHeight + 1 :=
      getSkipHeight_lt (Nat.succ_pos _)
    obtain ⟨pskip, hf, -, hheight, -⟩ := exists_getAncestor (Nat.lt_succ_iff.1 hlt)
    refine ⟨pskip, hf, ?_⟩
    rw [hheight]
    exact hlt

namespace BlockTree

theorem first_eq_none_iff {test : CBlockIndex → Bool} {pindex : CBlockIndex} :
    first test pindex = none ↔ ∀ other ∈ pindex.ancestors, test other = false := by
  rw [first, List.find?_eq_none]
  simp only [mem_reverse, Bool.not_eq_true]

theorem first_congr {test test' : CBlockIndex → Bool} {pindex : CBlockIndex}
    (heq : ∀ other ∈ pindex.ancestors, test other = test' other) :
    first test pindex = first test' pindex := by
  refine List.find?_congr fun other ho => ?_
  exact heq other (mem_reverse.1 ho)

section check

variable {params : TreeParams} {tree : BlockTree} {pindex : CBlockIndex}

section

variable (hindexed : tree.Indexed params tree.tip)

include hindexed

omit hindexed in
theorem first_failedValid_eq_none_iff :
    first (fun other => (tree.entry other).failedValid) pindex = none ↔ tree.Clean pindex :=
  first_eq_none_iff

omit hindexed in
/-- No block after the genesis block is below a level. -/
theorem first_belowLevel_eq_none_iff {level : ℕ} :
    first (tree.belowLevel level) pindex = none ↔
      ∀ other ∈ pindex.ancestors, other.pprev ≠ none → level ≤ (tree.entry other).nValidity := by
  rw [first_eq_none_iff]
  refine forall_congr' fun other => forall_congr' fun _ => ?_
  rw [belowLevel, Bool.and_eq_false_imp, Option.isSome_iff_ne_none, decide_eq_false_iff_not, not_lt]

omit hindexed in
/-- Whether the block waits for its parent. -/
theorem found_iff : (tree.mapBlocksUnlinked.any fun waiting =>
      decide (some waiting.1 = pindex.pprev) && decide (waiting.2 = pindex)) = true ↔
    ∃ pprev, pindex.pprev = some pprev ∧ (pprev, pindex) ∈ tree.mapBlocksUnlinked := by
  rw [any_eq_true]
  constructor
  · rintro ⟨⟨pprev, other⟩, hmem, htest⟩
    rw [Bool.and_eq_true, decide_eq_true_eq, decide_eq_true_eq] at htest
    obtain ⟨hprev, rfl⟩ := htest
    exact ⟨pprev, hprev.symm, hmem⟩
  · rintro ⟨pprev, hprev, hmem⟩
    exact ⟨(pprev, pindex), hmem, by simp [hprev]⟩

section

variable (hknown : pindex ∈ tree.mapBlockIndex)

include hknown

/-- A block is linked just if no block below it was never processed. -/
theorem Indexed.linked_iff :
    (tree.entry pindex).nChainTx ≠ 0 ↔ ∀ other ∈ pindex.ancestors, (tree.entry other).nTx ≠ 0 := by
  have hdata : ∀ other ∈ pindex.ancestors,
      ((tree.entry other).haveData = true ↔ (tree.entry other).nTx ≠ 0) := fun other ho =>
    (hindexed.entries other (hindexed.grown.ancestors hknown ho)).data
  constructor
  · exact fun hlink other ho =>
      (hdata other ho).1 (hindexed.linked_below hknown hlink ho).2
  · exact fun hall => hindexed.linked_of_data hknown fun other ho =>
      (hdata other ho).2 (hall other ho)

theorem Indexed.neverProcessed_iff :
    first (fun other => (tree.entry other).nTx = 0) pindex = none ↔
      (tree.entry pindex).nChainTx ≠ 0 := by
  rw [first_eq_none_iff, hindexed.linked_iff hknown]
  simp only [decide_eq_false_iff_not, ne_eq]

theorem Indexed.missing_eq :
    first (fun other => !(tree.entry other).haveData) pindex =
      first (fun other => (tree.entry other).nTx = 0) pindex := by
  refine first_congr fun other ho => ?_
  have hdata := (hindexed.entries other (hindexed.grown.ancestors hknown ho)).data
  rw [Bool.eq_iff_iff, Bool.not_eq_true', decide_eq_true_eq, ← Bool.not_eq_true, hdata, not_not]

theorem Indexed.notTransactionsValid_iff :
    first (tree.belowLevel blockValidTransactions) pindex = none ↔
      (tree.entry pindex).nChainTx ≠ 0 := by
  rw [first_belowLevel_eq_none_iff, hindexed.linked_iff hknown]
  refine forall_congr' fun other => forall_congr' fun ho => ?_
  have hbelow := hindexed.grown.ancestors hknown ho
  have hok := hindexed.entries other hbelow
  rw [hok.transactions]
  refine ⟨fun hlevel => ?_, fun hpos _ => hpos⟩
  by_cases hroot : other.pprev = none
  · exact hok.data.1 (hindexed.genesis hbelow hroot).2
  · exact hlevel hroot

theorem Indexed.checkEntry : tree.checkEntry params false pindex = true := by
  have hok := hindexed.entries pindex hknown
  have hnever := hindexed.neverProcessed_iff hknown
  have htransactions := hindexed.notTransactionsValid_iff hknown
  have hscrs : blockValidScripts ≤ (tree.entry pindex).nValidity →
      ∀ other ∈ pindex.ancestors, other.pprev ≠ none →
        blockValidScripts ≤ (tree.entry other).nValidity := hindexed.closed.known pindex hknown
  simp only [BlockTree.checkEntry, Bool.and_eq_true, decide_eq_true_eq, and_assoc,
    Bool.false_eq_true, if_false]
  refine ⟨fun hno => ⟨hindexed.grown.root pindex hknown hno, (hindexed.genesis hknown hno).1⟩,
    hok.order, ?_, hindexed.missing_eq hknown, hok.undo, ?_, ?_, ?_, pindex.length_ancestors,
    fun pprev hprev => (hindexed.work pindex hknown pprev hprev).le, ?_, ?_, ?_, ?_, ?_⟩
  · rw [← Bool.not_eq_true, hok.data, not_not]
  · rw [hok.transactions, Nat.pos_iff_ne_zero]
  · rw [ne_eq, hnever, not_not]
  · rw [ne_eq, htransactions, not_not]
  · exact or_iff_not_imp_left.2 CBlockIndex.exists_pskip
  · rw [first_belowLevel_eq_none_iff]
    exact fun other ho _ =>
      (hindexed.entries other (hindexed.grown.ancestors hknown ho)).level
  · intro hchain
    rw [first_belowLevel_eq_none_iff]
    have hhigh : blockValidTransactions < (tree.entry pindex).nValidity :=
      lt_of_lt_of_le (by decide) hchain
    have hle : blockValidChain ≤ blockValidScripts := by decide
    exact fun other ho hroot => hle.trans (hscrs (hok.scripts hhigh) other ho hroot)
  · intro hlevel
    rw [first_belowLevel_eq_none_iff]
    exact hscrs hlevel
  · intro hclean
    by_contra hmark
    exact hindexed.flags pindex hknown (by simpa using hmark)
      (first_failedValid_eq_none_iff.1 hclean)

theorem Indexed.checkSets : tree.checkSets params false pindex = true := by
  have hok := hindexed.entries pindex hknown
  have hnever := hindexed.neverProcessed_iff hknown
  have hmissing := hindexed.missing_eq hknown
  have hchain := hindexed.linking.chainTx pindex hknown not_mem_nil
  -- a block that waits has data, and its parent is not linked
  have hf : (tree.mapBlocksUnlinked.any fun waiting =>
        decide (some waiting.1 = pindex.pprev) && decide (waiting.2 = pindex)) = true →
      (tree.entry pindex).nTx ≠ 0 ∧ (tree.entry pindex).nChainTx = 0 := by
    intro hf
    obtain ⟨pprev, hprev, hmem⟩ := found_iff.1 hf
    obtain ⟨-, -, hpos, hzero⟩ := (hindexed.linking.unlinked pprev pindex).1 hmem
    refine ⟨hpos, ?_⟩
    by_contra hlink
    exact (hchain.1 hlink).2 pprev hprev hzero
  simp only [BlockTree.checkSets, Bool.and_eq_true, decide_eq_true_eq, and_assoc, hmissing, hnever]
  refine ⟨?_, ?_, ?_, ?_, ?_⟩
  · split_ifs with hgood
    · refine decide_eq_true fun hclean _ => ?_
      exact hindexed.ranked.complete pindex hknown hgood.2
        (first_failedValid_eq_none_iff.1 hclean) (less_eq_false_iff.1 hgood.1)
    · refine decide_eq_true fun hmem => hgood ?_
      exact ⟨less_eq_false_iff.2 (hindexed.ranked.notWorse pindex hmem),
        hindexed.ranked.linked pindex hmem⟩
  · intro hroot hdata hnot _
    obtain ⟨pprev, hprev⟩ := Option.ne_none_iff_exists'.1 hroot
    refine found_iff.2 ⟨pprev, hprev, (hindexed.linking.unlinked pprev pindex).2
      ⟨hknown, hprev, hok.data.1 hdata, ?_⟩⟩
    by_contra hlink
    refine hnot (hnever.2 (hchain.2 ⟨hok.data.1 hdata, fun low hlow => ?_⟩))
    rw [hprev] at hlow
    cases hlow
    exact hlink
  · intro hdata
    by_contra hmem
    rw [hok.data.2 (hf (by simpa using hmem)).1] at hdata
    cases hdata
  · intro hlink
    by_contra hmem
    exact hlink (hf (by simpa using hmem)).2
  · exact fun _ _ hlink hnot => absurd (hnever.2 hlink) hnot

end

/-- The invariant at the tip is what `CheckBlockIndex` asserts. -/
theorem Indexed.checkBlockIndex : tree.checkBlockIndex params false = true := by
  rw [BlockTree.checkBlockIndex, Bool.and_eq_true, Bool.and_eq_true, decide_eq_true_eq,
    all_eq_true, all_eq_true]
  refine ⟨⟨?_, ?_⟩, ?_⟩
  · have hnd : (tree.mapBlockIndex.filter fun pindex => pindex.pprev = none).Nodup :=
      hindexed.nodup.filter _
    have hiff : ∀ pindex, pindex ∈ tree.mapBlockIndex.filter (fun pindex => pindex.pprev = none) ↔
        pindex ∈ [tree.tip.root] := by
      intro pindex
      rw [mem_filter, decide_eq_true_eq, mem_singleton]
      constructor
      · rintro ⟨hknown, hno⟩
        exact (hindexed.genesis hknown hno).1
      · rintro rfl
        obtain ⟨hmem, hroot⟩ := tree.tip.root_spec
        exact ⟨hindexed.grown.ancestors hindexed.grown.tip hmem, hroot⟩
    exact ((perm_ext_iff_of_nodup hnd (nodup_singleton _)).2 hiff).length_eq
  · exact fun pindex hknown => decide_eq_true fun pprev hprev =>
      hindexed.grown.pprev pindex hknown pprev hprev
  · intro pindex hknown
    rw [Bool.and_eq_true]
    exact ⟨hindexed.checkEntry hknown, hindexed.checkSets hknown⟩

end

end check

end BlockTree

/-- The calls of a node. A block is invalidated with an activation right after, as the RPC does. -/
inductive IndexCall where
  | acceptBlockHeader (block : CBlockHeader) (checks : HeaderChecks)
  | acceptBlock (arrival : BlockArrival)
  | activateBestChain (env : ActivateEnv) (rounds : ℕ)
  | invalidateBlock (env : ActivateEnv) (hash : Uint256) (rounds : ℕ)

namespace BlockTree

def indexCall (params : TreeParams) (tree : BlockTree) : IndexCall → Except Fault BlockTree
  | .acceptBlockHeader block checks => tree.call params (.acceptBlockHeader block checks)
  | .acceptBlock arrival => tree.call params (.acceptBlock arrival)
  | .activateBestChain env rounds => tree.call params (.activateBestChain env rounds)
  | .invalidateBlock env hash rounds =>
    match tree.call params (.invalidateBlock env hash) with
    | .error fault => .error fault
    | .ok tree => tree.call params (.activateBestChain env rounds)

/-- What a call has to meet: a body that passes the checks is not stored on a failed unlinked block,
and the transactions of no chain are too many to count; an activation is undisturbed, has the rounds
it may need, and finds no block invalid that was connected before. -/
def Fits (tree : BlockTree) : IndexCall → Prop
  | .acceptBlockHeader _ _ => True
  | .acceptBlock arrival => arrival.blockChecks = .ok () →
      (∀ pindex, tree.find arrival.header.hash = some pindex →
        (tree.entry pindex).haveData = false →
        tree.Orderly pindex ∧ tree.Countable pindex arrival.nTx) ∧
      ∀ pprev, tree.find arrival.header.hash = none →
        tree.find arrival.header.hashPrevBlock = some pprev →
        tree.totalTx pprev + arrival.nTx < 2 ^ 32
  | .activateBestChain env rounds | .invalidateBlock env _ rounds =>
      tree.Reconnects env ∧ env.Undisturbed ∧ (tree.mapBlockIndex.length + 1) ^ 2 ≤ rounds

section calls

variable {params : TreeParams} {tree : BlockTree}

theorem Indexed.activateBestChain {ref : CBlockIndex} {env : ActivateEnv} {rounds : ℕ}
    (hindexed : tree.Indexed params ref) (hcalm : env.Undisturbed) (hrecon : tree.Reconnects env)
    (hrounds : (tree.mapBlockIndex.length + 1) ^ 2 ≤ rounds) :
    ∃ next, tree.call params (.activateBestChain env rounds) = .ok next ∧
      next.Indexed params next.tip := by
  obtain ⟨next, hact, hnext⟩ : ∃ next, BlockTree.activateBestChain params env rounds none tree =
      .ok (.done, next) ∧ next.Indexed params next.tip :=
    activateBestChain_indexed hindexed hcalm hrecon (by nofun) (tree.effort_lt.trans_le hrounds)
  refine ⟨next, ?_, hnext⟩
  rw [BlockTree.call, hact]
  rfl

section

variable (hindexed : tree.Indexed params tree.tip)

include hindexed

theorem Indexed.acceptBlockHeader (block : CBlockHeader) (checks : HeaderChecks) :
    ∃ next, tree.call params (.acceptBlockHeader block checks) = .ok next ∧
      next.Indexed params next.tip := by
  obtain ⟨⟨result, next⟩, hacc⟩ := hindexed.sound.acceptBlockHeader params block checks
  have hstep := acceptBlockHeader_step hindexed.grown hacc
  refine ⟨next, ?_, hstep.tip ▸ hindexed.headerStep hstep⟩
  rw [BlockTree.call, hacc]
  rfl

/-- A block with accepted header is known and not marked failed, and its data can be stored. -/
theorem Indexed.accepted {arrival : BlockArrival} {pindex : CBlockIndex} {mid : BlockTree}
    (hstep : HeaderStep params tree arrival.header (some pindex) mid) :
    mid.Indexed params mid.tip ∧ (mid.entry pindex).failed = false ∧
      (tree.Fits (.acceptBlock arrival) → arrival.blockChecks = .ok () →
        (mid.entry pindex).haveData = false →
        mid.Orderly pindex ∧ mid.Countable pindex arrival.nTx) := by
  have hmid := hindexed.headerStep hstep
  cases hstep with
  | known _ hfind hvalid =>
    refine ⟨hmid, ?_, fun hfits hchecks => (hfits hchecks).1 pindex hfind⟩
    rcases hvalid with hvalid | hgen
    · exact hvalid
    · obtain ⟨genesis, hmem, hf⟩ := hindexed.grown.find_genesis
      rw [hgen, hf] at hfind
      cases hfind
      exact (hindexed.grown.usable pindex hmem).1
  | added pprev hnew hprev hvalid hscrs =>
    have hin := (mem_of_find hprev).1
    refine ⟨hmid, ?_, fun hfits hchecks _ => ⟨fun other ho _ => ?_, fun other ho habove => ?_⟩⟩
    · rw [entry_grow_new]
      rfl
    · cases ho
      rw [entry_grow_of_mem hnew hin]
      exact hvalid
    · -- no other block is above the new one
      rcases mem_cons.1 ho with rfl | hold
      · rw [totalTx_eq, entry_grow_new]
        refine lt_of_eq_of_lt (congrArg (· + arrival.nTx) ?_) ((hfits hchecks).2 pprev hnew hprev)
        exact totalTx_congr fun low hlow => by
          rw [entry_grow_of_mem hnew (hindexed.grown.ancestors hin hlow)]
      · exact absurd (hindexed.grown.ancestors hold habove) (not_mem_of_find_none hnew)

theorem Indexed.acceptBlock (arrival : BlockArrival) (hfits : tree.Fits (.acceptBlock arrival)) :
    ∃ next, tree.call params (.acceptBlock arrival) = .ok next ∧ next.Indexed params next.tip := by
  obtain ⟨⟨result, mid⟩, hacc⟩ :=
    hindexed.sound.acceptBlockHeader params arrival.header arrival.headerChecks
  have hstep := acceptBlockHeader_step hindexed.grown hacc
  rw [BlockTree.call, BlockTree.acceptBlock, hacc]
  cases result with
  | error reject =>
    obtain ⟨next, hcall, hnext⟩ := hindexed.acceptBlockHeader arrival.header arrival.headerChecks
    rw [BlockTree.call, hacc] at hcall
    cases hcall
    exact ⟨_, rfl, hnext⟩
  | ok pindex =>
    obtain ⟨hmid, hvalid, hstorable⟩ := hindexed.accepted hstep
    exact ⟨_, rfl, hmid.bodyStep hstep.mem hvalid (hstorable hfits)
      (acceptBlockBody_step params mid arrival pindex)⟩

theorem Indexed.call {call : IndexCall} (hfits : tree.Fits call) :
    ∃ next, tree.indexCall params call = .ok next ∧ next.Indexed params next.tip := by
  cases call with
  | acceptBlockHeader block checks => exact hindexed.acceptBlockHeader block checks
  | acceptBlock arrival => exact hindexed.acceptBlock arrival hfits
  | activateBestChain env rounds =>
    exact hindexed.activateBestChain hfits.2.1 hfits.1 hfits.2.2
  | invalidateBlock env hash rounds =>
    obtain ⟨hrecon, hcalm, hrounds⟩ := hfits
    rw [indexCall]
    cases hfind : tree.find hash with
    | none =>
      have hcall : tree.call params (.invalidateBlock env hash) = .ok tree := by
        rw [BlockTree.call, hfind]
      rw [hcall]
      exact hindexed.activateBestChain hcalm hrecon hrounds
    | some pindex =>
      have hcall : tree.call params (.invalidateBlock env hash) =
          .ok (tree.invalidateBlock params env pindex).2 := by
        rw [BlockTree.call, hfind]
      obtain ⟨hmap, ref, hnext⟩ := hindexed.invalidateBlock env (mem_of_find hfind).1
      rw [hcall]
      refine hnext.activateBestChain hcalm (hrecon.invalidateBlock params env pindex) ?_
      rwa [hmap]

end

theorem indexed_initial (params : TreeParams) (nTime : UInt32) {nTx : ℕ} (hpos : 0 < nTx)
    (hsmall : nTx < 2 ^ 32) :
    (initial params nTime nTx).Indexed params (initial params nTime nTx).tip := by
  have hguard := guarded_initial params nTime nTx
  have hgen : ∀ pindex ∈ (initial params nTime nTx).mapBlockIndex,
      pindex = .genesis params.hashGenesisBlock nTime := fun pindex => mem_singleton.1
  have hent : (initial params nTime nTx).entry (.genesis params.hashGenesisBlock nTime) =
      ⟨blockValidTransactions, true, false, false, false, nTx, nTx,
        params.getBlockProof params.hashGenesisBlock, 1⟩ := by
    simp only [initial, Function.update_self]
  have hnTx : nTx ≠ 0 := hpos.ne'
  have hlevel : blockValidTree ≤ blockValidTransactions := by decide
  refine ⟨hguard.grown, hguard.sound, hguard.closed, nodup_singleton _,
    ⟨?_, by simp, ?_, nodup_nil, nodup_nil, hguard.grown.pprev, ?_, ?_⟩, ⟨?_, ?_, ?_⟩, ?_, ?_, ?_,
    hguard.grown.tip,
    hguard.grown.usable, hguard.closed.tip⟩
  · intro pindex hknown _
    rw [hgen pindex hknown, Arrived, hent]
    exact iff_of_true hnTx ⟨hnTx, by simp [CBlockIndex.pprev]⟩
  · intro pprev pindex
    refine iff_of_false not_mem_nil ?_
    rintro ⟨hknown, hprev, -⟩
    rw [hgen pindex hknown] at hprev
    cases hprev
  · intro pindex hknown _
    rw [hgen pindex hknown, totalTx_eq, hent]
    exact (Nat.zero_add nTx).symm
  · intro pindex hknown
    rw [hgen pindex hknown, totalTx_eq, hent]
    exact (Nat.zero_add nTx).trans_lt hsmall
  · intro pindex hmem
    rw [hgen pindex hmem, hent]
    exact hnTx
  · intro pindex hmem
    rw [hgen pindex hmem]
    exact le_rfl
  · exact fun pindex hknown _ _ _ => hknown
  · intro pindex hknown
    rw [hgen pindex hknown, hent]
    exact ⟨hlevel, iff_of_true rfl hnTx, iff_of_true le_rfl hnTx,
      fun hhigh => absurd hhigh (lt_irrefl _), by simp, fun hno => absurd hno hnTx⟩
  · intro pindex hknown pprev hprev
    rw [hgen pindex hknown] at hprev
    cases hprev
  · intro pindex hknown hmark
    rw [hgen pindex hknown, hent] at hmark
    cases hmark

end calls

/-- Along every run of fitting calls no assertion fails, and in every state all that
`CheckBlockIndex` asserts holds. -/
theorem check_block_index_along_runs (params : TreeParams) (nTime : UInt32) (nTx : ℕ)
    (hpos : 0 < nTx) (hsmall : nTx < 2 ^ 32) (calls : List IndexCall)
    (hfits : Runs.Throughout (indexCall params) Fits calls (initial params nTime nTx)) :
    Runs.Always (indexCall params) (fun tree => tree.checkBlockIndex params false = true) calls
        (initial params nTime nTx) ∧
      ∃ tree, Runs.run (indexCall params) calls (initial params nTime nTx) = .ok tree := by
  have hstart := indexed_initial params nTime hpos hsmall
  have hreturns : ∀ (tree : BlockTree) (call : IndexCall), tree.Indexed params tree.tip →
      tree.Fits call →
      ∃ next, tree.indexCall params call = .ok next ∧ next.Indexed params next.tip :=
    fun tree call hindexed hfit => hindexed.call hfit
  obtain ⟨last, hrun, -⟩ := hfits.exists_run hreturns hstart
  refine ⟨?_, last, hrun⟩
  have halways : Runs.Always (indexCall params) (fun tree => tree.Indexed params tree.tip) calls
      (initial params nTime nTx) := by
    refine hfits.always (fun tree call next hindexed hfit hcall => ?_) hstart
    obtain ⟨after, hafter, hnext⟩ := hreturns tree call hindexed hfit
    rw [hcall] at hafter
    cases hafter
    exact hnext
  exact halways.imp fun tree hindexed => hindexed.checkBlockIndex

end BlockTree

namespace BlockIndexCheckedWitness

open BlockTree FailedBlocksWitness InvalidHeadersWitness

def connectOne : List IndexCall :=
  [.acceptBlock (validBody 0 1), .activateBestChain env 9]

theorem throughout_connectOne :
    Runs.Throughout (indexCall params) Fits connectOne (initial params 0 1) := by
  refine ⟨fun _ => ⟨fun pindex hfind => (by cases hfind), fun pprev _ hprev => ?_⟩,
    fun next hnext => ⟨⟨fun _ _ _ => nofun, ⟨fun _ => .inl rfl, fun _ => rfl⟩, ?_⟩,
      fun _ _ => trivial⟩⟩
  · cases hprev
    decide +kernel
  · obtain ⟨tree, hrun, htest⟩ : ∃ tree, Runs.run (indexCall params) [.acceptBlock (validBody 0 1)]
        (initial params 0 1) = .ok tree ∧ decide (tree.mapBlockIndex.length = 2) = true :=
      Runs.exists_of_endsIn (by decide +kernel)
    have heq : Runs.run (indexCall params) [.acceptBlock (validBody 0 1)] (initial params 0 1) =
        .ok next := by simp only [Runs.run, hnext]
    obtain rfl := Except.ok.inj (heq.symm.trans hrun)
    rw [of_decide_eq_true htest]
    decide

theorem check_block_index_after_connect :
    ∃ tree, Runs.run (indexCall params) connectOne (initial params 0 1) = .ok tree ∧
      tree.checkBlockIndex params false = true ∧ tree.tip.nHeight = 1 := by
  obtain ⟨tree, hrun, htest⟩ : ∃ tree, Runs.run (indexCall params) connectOne
      (initial params 0 1) = .ok tree ∧ decide (tree.tip.nHeight = 1) = true :=
    Runs.exists_of_endsIn (by decide +kernel)
  have hchecked := check_block_index_along_runs params 0 1 Nat.one_pos (by decide) connectOne
    throughout_connectOne
  exact ⟨tree, hrun, hchecked.1.last hrun, of_decide_eq_true htest⟩

/-- The body of the middle of three blocks, which is invalidated, then that of the highest and last
that of the lowest. -/
def bodyOnFailedParent : List IndexCall :=
  [.acceptBlockHeader (header 0 1) checks, .acceptBlockHeader (header 1 2) checks,
    .acceptBlockHeader (header 2 3) checks, .acceptBlock (validBody 1 2),
    .invalidateBlock env (hashOf 2) 5, .acceptBlock (validBody 2 3),
    .acceptBlock (validBody 0 1)]

/-- The highest block has all blocks before it but is not linked, and `CheckBlockIndex`
fails. -/
theorem check_fails_above_failed_parent :
    ∃ tree, Runs.run (indexCall params) bodyOnFailedParent (initial params 0 1) = .ok tree ∧
      tree.checkBlockIndex params false = false ∧
      ∃ pindex ∈ tree.mapBlockIndex, (tree.entry pindex).nChainTx = 0 ∧
        ∀ other ∈ pindex.ancestors, (tree.entry other).nTx ≠ 0 := by
  have hends : Runs.endsIn (indexCall params) (fun tree =>
      !tree.checkBlockIndex params false && tree.mapBlockIndex.any fun pindex =>
        decide ((tree.entry pindex).nChainTx = 0) &&
          pindex.ancestors.all fun other => decide ((tree.entry other).nTx ≠ 0))
      bodyOnFailedParent (initial params 0 1) = true := by decide +kernel
  obtain ⟨tree, hrun, htest⟩ := Runs.exists_of_endsIn hends
  obtain ⟨hcheck, hblk⟩ := Bool.and_eq_true_iff.1 htest
  rw [Bool.not_eq_true'] at hcheck
  obtain ⟨pindex, hknown, hpindex⟩ := any_eq_true.1 hblk
  obtain ⟨hzero, hall⟩ := Bool.and_eq_true_iff.1 hpindex
  refine ⟨tree, hrun, hcheck, pindex, hknown, of_decide_eq_true hzero, ?_⟩
  exact fun other ho => of_decide_eq_true (all_eq_true.1 hall other ho)

end BlockIndexCheckedWitness

end Catoshi
