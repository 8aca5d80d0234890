/-
How `ActivateBestChain` and `InvalidateBlock` keep the invariant of the block tree. Undisturbed, an
activation comes to its end: every round finds a block invalid or gives the tip more work.
-/
import Catoshi.BlockIndexInvariant

namespace Catoshi

open CBlockIndex List

theorem CBlockIndex.head?_above (tip fork : CBlockIndex) :
    (tip.above fork ++ [fork]).head? = some tip := by
  by_cases hsame : tip = fork
  · rw [hsame, above_self]
    rfl
  · cases tip with
    | genesis | child =>
      rw [above, if_neg hsame]
      rfl

theorem CBlockIndex.isChain_above {fork tip : CBlockIndex} (hfork : fork ∈ tip.ancestors) :
    List.IsChain (fun low high => pprev high = some low) (fork :: (tip.above fork).reverse) := by
  have hdown : List.IsChain (fun high low => pprev high = some low) (tip.above fork ++ [fork]) := by
    induction tip, hfork using ancestors_induction with
    | self =>
      rw [above_self]
      exact isChain_singleton _
    | child pprev hash time hbelow ih =>
      rw [above_child hbelow, cons_append]
      refine List.isChain_cons.2 ⟨fun low hlow => ?_, ih⟩
      rwa [head?_above] at hlow
  have hreverse : (fork :: (tip.above fork).reverse) = (tip.above fork ++ [fork]).reverse := by
    simp
  rw [hreverse, isChain_reverse]
  exact hdown

/-- There is no system error, and no block has data that may be corrupt. -/
structure ActivateEnv.Undisturbed (env : ActivateEnv) : Prop where
  connects : ∀ pindex, env.connects pindex = .connected ∨ env.connects pindex = .invalid
  disconnects : ∀ pindex, env.disconnects pindex = true

/-- Fewer elements pass a test if one that passed now fails. -/
theorem countP_lt_countP {α : Type*} {list : List α} {test test' : α → Bool}
    (himp : ∀ other ∈ list, test' other = true → test other = true) {x : α} (hmem : x ∈ list)
    (htest : test x = true) (hfails : test' x = false) : list.countP test' < list.countP test := by
  have hsame : (list.filter test).countP test' = list.countP test' := by
    rw [countP_filter]
    refine countP_congr fun other ho => ?_
    rw [Bool.and_eq_true, and_iff_left_iff_imp]
    exact himp other ho
  rw [← hsame, countP_eq_length_filter (p := test)]
  exact countP_lt_length_iff.2 ⟨x, mem_filter.2 ⟨hmem, htest⟩, hfails⟩

namespace BlockTree

section search

variable {params : TreeParams} {env : ActivateEnv} {tree next : BlockTree}
  {ref pindex : CBlockIndex}

/-- With all blocks below linked the walk ends without an assertion, at a failed block if at all. -/
theorem findUnusable_linked
    (hlink : ∀ other ∈ pindex.ancestors, (tree.entry other).nChainTx ≠ 0 ∧
      (tree.entry other).haveData = true)
    (huse : tree.Usable tree.tip) :
    tree.findUnusable pindex = .ok none ∧ tree.Usable pindex ∨
      ∃ pindexTest ∈ pindex.ancestors, (tree.entry pindexTest).failed = true ∧
        tree.findUnusable pindex = .ok (some (pindexTest, true)) := by
  have hreturns : ∃ result, tree.findUnusable pindex = .ok result := by
    induction pindex with
    | genesis hash time =>
      rw [findUnusable]
      split_ifs <;> exact ⟨_, rfl⟩
    | child pprev hash time ih =>
      rw [findUnusable]
      have hself := (hlink _ (ancestors_self _)).1
      split_ifs
      · exact ⟨_, rfl⟩
      · exact ⟨_, rfl⟩
      · exact ih (List.forall_mem_cons.1 hlink).2
  obtain ⟨result, hres⟩ := hreturns
  rcases findUnusable_spec huse hres with ⟨rfl, hgood⟩ | ⟨pindexTest, hmem, rfl, hunusable⟩
  · exact .inl ⟨hres, hgood⟩
  · have hfail : (tree.entry pindexTest).failed = true := by
      refine hunusable.resolve_right fun hmissing => ?_
      rw [(hlink pindexTest hmem).2] at hmissing
      cases hmissing
    rw [hfail] at hres
    exact .inr ⟨pindexTest, hmem, hfail, hres⟩

/-- `FindMostWorkChain` finds a usable candidate no worse than the reference. -/
theorem findMostWorkChain_indexed {n : ℕ} (hidx : tree.Indexed params ref)
    (hrecon : tree.Reconnects env) (hfuel : tree.setBlockIndexCandidates.length < n) :
    ∃ found next, findMostWorkChain params n tree = .ok (some found, next) ∧
      next.Indexed params ref ∧ next.Reconnects env ∧
      found ∈ next.setBlockIndexCandidates ∧ next.Usable found ∧
      next.rank params ref ≤ next.rank params found := by
  induction n generalizing tree with
  | zero => exact absurd hfuel (Nat.not_lt_zero _)
  | succ n ih =>
    rw [findMostWorkChain]
    rcases bestCandidate_spec params tree with ⟨hempty, -⟩ | ⟨best, hcand, hbest, hmax⟩
    · have href := hidx.ref_candidate
      rw [hempty] at href
      cases href
    · have hin := hidx.grown.candidates best hcand
      have hlink := hidx.ranked.linked best hcand
      rw [hbest]
      rcases findUnusable_linked (fun other ho =>
          hidx.linked_below hin hlink ho) hidx.grown.usable with
        ⟨hno, huse⟩ | ⟨pindexTest, hmem, hfail, hsome⟩
      · simp only [hno]
        exact ⟨best, tree, rfl, hidx, hrecon, hcand, huse, hmax ref hidx.ref_candidate⟩
      · simp only [hsome]
        have hmove : Move params env tree (tree.removeChain best pindexTest true) := by
          have hdiscard : Move params env tree _ := .discard best pindexTest hcand hmem (.inl hfail)
          rwa [hfail] at hdiscard
        refine ih (hidx.discard hmove hcand hmem hfail) (hrecon.move hmove) ?_
        exact lt_of_lt_of_le (length_removeChain_lt hcand hmem _) (Nat.lt_succ_iff.1 hfuel)

end search

section activation

variable {params : TreeParams} {env : ActivateEnv} {tree next : BlockTree}
  {ref pindex : CBlockIndex}

/-- A chain to go for: a usable candidate no worse than the reference. -/
structure Target (params : TreeParams) (tree : BlockTree) (ref pindexMostWork : CBlockIndex) :
    Prop where
  candidate : pindexMostWork ∈ tree.setBlockIndexCandidates
  usable : tree.Usable pindexMostWork
  notWorse : tree.rank params ref ≤ tree.rank params pindexMostWork

/-- What an activation has left to do: the blocks it may still find invalid, and for each of them
the blocks with more work than the tip. -/
def effort (tree : BlockTree) : ℕ :=
  tree.mapBlockIndex.countP (fun pindex => !(tree.entry pindex).failed) *
      (tree.mapBlockIndex.length + 1) +
    tree.mapBlockIndex.countP fun pindex =>
      decide ((tree.entry tree.tip).nChainWork < (tree.entry pindex).nChainWork)

variable {pindexMostWork : CBlockIndex} {start : Option CBlockIndex}

/-- Pruning below a candidate leaves it. -/
theorem exists_pruned (hcand : pindexMostWork ∈ tree.setBlockIndexCandidates)
    (hrank : tree.rank params tree.tip ≤ tree.rank params pindexMostWork) :
    ∃ next, tree.pruneBlockIndexCandidates params = .ok next := by
  rw [pruneBlockIndexCandidates]
  have hkept : pindexMostWork ∈ tree.setBlockIndexCandidates.filter fun pindex =>
      !tree.less params pindex tree.tip := by
    rw [mem_filter, Bool.not_eq_true', less_eq_false_iff]
    exact ⟨hcand, hrank⟩
  simp only [ne_nil_of_mem hkept, if_false]
  exact ⟨_, rfl⟩

section

variable (hidx : tree.Indexed params ref)

include hidx

/-- Connecting a block on the way keeps the target. -/
theorem Target.connect
    (htgt : tree.Target params ref pindexMostWork) (hmem : pindex ∈ pindexMostWork.ancestors)
    {ref' : CBlockIndex} (href : ref' = ref ∨ ref' = pindex)
    (hprune : (tree.connectTip pindex).pruneBlockIndexCandidates params = .ok next) :
    next.Target params ref' pindexMostWork := by
  have hin := hidx.grown.candidates _ htgt.candidate
  have hrank : ∀ other, next.rank params other = tree.rank params other := by
    intro other
    rw [pruneCandidates_eq hprune]
    exact (marked_markScriptsValid tree pindex).rank other
  have hbelow := hidx.rank_le_of_mem hin hmem
  constructor
  · have hless : next.less params pindexMostWork pindex = false := by
      rw [less_eq_false_iff, hrank, hrank]
      exact hbelow
    rw [pruneCandidates_eq hprune] at hless ⊢
    exact List.mem_filter.2 ⟨htgt.candidate, by rw [Bool.not_eq_true']; exact hless⟩
  · rw [pruneCandidates_eq hprune]
    exact usable_markScriptsValid.2 htgt.usable
  · rw [hrank, hrank]
    rcases href with rfl | rfl
    · exact htgt.notWorse
    · exact hbelow

/-- A tip no worse than the reference can take its place. -/
theorem Indexed.at_tip (hrank : tree.rank params ref ≤ tree.rank params tree.tip) :
    tree.Indexed params tree.tip :=
  { hidx with
    ranked := ⟨hidx.ranked.linked, hidx.ranked.notWorse, fun pindex hin hlink hclean hgood =>
        hidx.ranked.complete pindex hin hlink hclean (hrank.trans hgood)⟩
    refKnown := hidx.grown.tip
    refUsable := hidx.grown.usable
    refScripts := hidx.closed.tip }

/-- The genesis block has data and is the root of the active chain. -/
theorem Indexed.genesis (hin : pindex ∈ tree.mapBlockIndex) (hno : pindex.pprev = none) :
    pindex = tree.tip.root ∧ (tree.entry pindex).haveData = true := by
  obtain ⟨hmem, hroot⟩ := tree.tip.root_spec
  have hknown := hidx.grown.ancestors hidx.grown.tip hmem
  have heq : pindex = tree.tip.root := hidx.grown.unique pindex hin _ hknown
    ((hidx.grown.root pindex hin hno).trans (hidx.grown.root _ hknown hroot).symm)
  exact ⟨heq, (hidx.grown.usable pindex (heq ▸ hmem)).2⟩

theorem Indexed.exists_fork (hin : pindex ∈ tree.mapBlockIndex) :
    ∃ fork, tree.findFork pindex = some fork := by
  obtain ⟨start, hstart, hmem⟩ : ∃ start, (if tree.tip.nHeight < pindex.nHeight then
      pindex.getAncestor tree.tip.nHeight else some pindex) = some start ∧
        start ∈ pindex.ancestors := by
    split_ifs with hhigh
    · obtain ⟨start, hf, hmem, -⟩ := exists_getAncestor hhigh.le
      exact ⟨start, hf, hmem⟩
    · exact ⟨pindex, rfl, ancestors_self _⟩
  obtain ⟨hroot, hno⟩ := start.root_spec
  have hshared := hidx.genesis (hidx.grown.ancestors hin (ancestors_trans hroot hmem)) hno
  have hcont : tree.contains start.root = true :=
    contains_iff.2 (hshared.1 ▸ tree.tip.root_spec.1)
  rw [findFork, hstart]
  exact Option.isSome_iff_exists.1 (find?_isSome.2 ⟨_, hroot, hcont⟩)

omit hidx in
theorem exists_disconnectTo (hcalm : env.Undisturbed) {fork tip : CBlockIndex}
    (hfork : fork ∈ tip.ancestors) (htip : tree.tip = tip) :
    ∃ next, disconnectTo env (some fork) tip tree = .ok next := by
  induction tip generalizing tree with
  | genesis hash time =>
    rw [disconnectTo, if_pos (congrArg some (mem_singleton.1 hfork).symm)]
    exact ⟨_, rfl⟩
  | child pprev hash time ih =>
    rw [disconnectTo]
    split_ifs with hsame
    · exact ⟨_, rfl⟩
    · rw [disconnectTip_of_child htip, if_pos (hcalm.disconnects _)]
      exact ih ((mem_cons.1 hfork).resolve_left fun heq => hsame (congrArg some heq.symm)) rfl

/-- How a step ends: with one more failed block, or on its way with the tip at the target or with
more work than before. -/
def Advanced (params : TreeParams) (tree next : BlockTree) (ref pindexMostWork : CBlockIndex)
    (oldWork : ℕ) : Bool → Prop
  | true => ∃ pindex ∈ tree.mapBlockIndex, (tree.entry pindex).failed = false ∧
      (next.entry pindex).failed = true
  | false => next.Target params ref pindexMostWork ∧
      (next.tip = pindexMostWork ∨ oldWork < (next.entry next.tip).nChainWork)

omit hidx in
theorem Advanced.of_moves {mid : BlockTree} {oldWork : ℕ} {fInvalidFound : Bool}
    (hadv : Advanced params mid next ref pindexMostWork oldWork fInvalidFound)
    (hmoves : Moves params env tree mid) :
    Advanced params tree next ref pindexMostWork oldWork fInvalidFound := by
  cases fInvalidFound with
  | false => exact hadv
  | true =>
    obtain ⟨pindex, hin, hpre, hmark⟩ := hadv
    refine ⟨pindex, mapBlockIndex_of_moves hmoves ▸ hin, Bool.eq_false_iff.2 fun hfail => ?_, hmark⟩
    exact Bool.eq_false_iff.1 hpre ((shrunk_of_moves hmoves).failed pindex hfail)

section

variable (hcalm : env.Undisturbed) (hrecon : tree.Reconnects env)
  (hstart : ∀ pindex, start = some pindex → tree.Target params ref pindex)

include hcalm hrecon hstart

omit hstart in
theorem connectBlocks_indexed {oldWork : ℕ} {blocks : List CBlockIndex}
    (htgt : tree.Target params ref pindexMostWork)
    (hpath : List.IsChain (fun low high => pprev high = some low) (tree.tip :: blocks))
    (hblocks : ∀ pindex ∈ blocks, pindex ∈ pindexMostWork.ancestors)
    (hlast : (tree.tip :: blocks).getLast? = some pindexMostWork) :
    ∃ fInvalidFound next,
      connectBlocks params env oldWork blocks tree = .ok (some fInvalidFound, next) ∧
      ∃ ref', next.Indexed params ref' ∧ next.Reconnects env ∧
        Advanced params tree next ref' pindexMostWork oldWork fInvalidFound := by
  induction blocks generalizing tree ref with
  | nil => exact ⟨false, tree, rfl, ref, hidx, hrecon, htgt, .inl (Option.some.inj hlast)⟩
  | cons pindex blocks ih =>
    obtain ⟨hprev, hrest⟩ := List.isChain_cons_cons.1 hpath
    have hmem := hblocks pindex mem_cons_self
    have hmostKnown := hidx.grown.candidates _ htgt.candidate
    have hin := hidx.grown.ancestors hmostKnown hmem
    have huse := htgt.usable.of_mem hmem
    rw [connectBlocks, if_neg (not_not.2 hprev)]
    rcases hcalm.connects pindex with hconns | hconns
    · have hrank : (tree.connectTip pindex).rank params (tree.connectTip pindex).tip ≤
          (tree.connectTip pindex).rank params pindexMostWork := by
        have hmarks := marked_markScriptsValid tree pindex
        have heq : ∀ other, (tree.connectTip pindex).rank params other =
          tree.rank params other := hmarks.rank
        rw [heq, heq]
        exact hidx.rank_le_of_mem hmostKnown hmem
      have hexists : ∃ pruned, (tree.connectTip pindex).pruneBlockIndexCandidates params =
        .ok pruned := exists_pruned htgt.candidate hrank
      obtain ⟨pruned, hprune⟩ := hexists
      have hmove : Move params env tree pruned :=
        .connect pindex pruned hin hprev huse hconns hprune
      obtain ⟨ref', hindexed', href⟩ := hidx.connect hmove hin hprev huse hprune
      have htarget' := htgt.connect hidx hmem href hprune
      have hreconnects' := hrecon.move hmove
      have htip : pruned.tip = pindex := by rw [pruneCandidates_eq hprune]; rfl
      simp only [hconns, hprune]
      split
      · next hmore =>
        exact ⟨false, pruned, rfl, ref', hindexed', hreconnects', htarget', .inr hmore⟩
      · obtain ⟨fInvalidFound, next, hconn, ref', hnext, hrecon', hadv⟩ :=
          ih hindexed' hreconnects' htarget' (htip ▸ hrest) (List.forall_mem_cons.1 hblocks).2
            (by rwa [htip, ← getLast?_cons_cons])
        exact ⟨fInvalidFound, next, hconn, ref', hnext, hrecon', hadv.of_moves (.single hmove)⟩
    · have hmove : Move params env tree (tree.invalidBlockFound params pindex) :=
        .invalid pindex hin hprev huse hconns
      have hlow : (tree.entry pindex).nValidity < blockValidScripts := by
        by_contra hlevel
        exact hrecon pindex hin (not_lt.1 hlevel) hconns
      simp only [hconns]
      refine ⟨true, _, rfl, ref, hidx.invalid hmove hprev hlow, hrecon.move hmove, pindex, hin,
        (huse pindex (ancestors_self _)).1, ?_⟩
      rw [entry_invalid, if_pos rfl]
      rfl

omit hstart in
theorem activateBestChainStep_indexed (htgt : tree.Target params ref pindexMostWork) :
    ∃ fInvalidFound next,
      tree.activateBestChainStep params env pindexMostWork = .ok (some fInvalidFound, next) ∧
      ∃ ref', next.Indexed params ref' ∧ next.Reconnects env ∧
        Advanced params tree next ref' pindexMostWork (tree.entry tree.tip).nChainWork
          fInvalidFound := by
  obtain ⟨fork, hfork⟩ := hidx.exists_fork (hidx.grown.candidates _ htgt.candidate)
  obtain ⟨hmem, hbelow⟩ := mem_of_findFork hfork
  obtain ⟨rewound, hrewound⟩ := exists_disconnectTo hcalm hbelow rfl
  rw [activateBestChainStep, hfork]
  obtain ⟨low, hlow, hmoves, herror | ⟨hsame, hok⟩⟩ :=
    disconnectTo_spec params env (some fork) tree
  · cases herror.symm.trans hrewound
  · obtain rfl := Option.some.inj hsame
    rw [hok]
    refine connectBlocks_indexed (hidx.disconnect hlow (hidx.grown.moves hmoves)) hcalm hrecon
      ⟨htgt.candidate, htgt.usable, htgt.notWorse⟩ (isChain_above hmem)
      (fun pindex hpidx => ((mem_above_iff hmem).1 (List.mem_reverse.1 hpidx)).1) ?_
    change (low :: (pindexMostWork.above low).reverse).getLast? = _
    rw [← reverse_concat, getLast?_reverse, head?_above]

omit hcalm in
/-- The block to go for is a target. -/
theorem mostWork_indexed :
    ∃ found next, tree.mostWork params start = .ok (some found, next) ∧
      next.Indexed params ref ∧ next.Reconnects env ∧ next.Target params ref found := by
  cases start with
  | some pindex => exact ⟨pindex, tree, rfl, hidx, hrecon, hstart pindex rfl⟩
  | none =>
    obtain ⟨found, next, hfind, hidx, hrecon, hcand, huse, hrank⟩ :=
      findMostWorkChain_indexed hidx hrecon (Nat.lt_succ_self _)
    exact ⟨found, next, hfind, hidx, hrecon, ⟨hcand, huse, hrank⟩⟩

omit hidx hcalm hrecon hstart in
theorem effort_lt (tree : BlockTree) :
    tree.effort < (tree.mapBlockIndex.length + 1) ^ 2 := by
  have hvalid := Nat.mul_le_mul_right (tree.mapBlockIndex.length + 1) (@countP_le_length _
    (fun pindex => !(tree.entry pindex).failed) tree.mapBlockIndex)
  have hwork := @countP_le_length _ (fun pindex => decide ((tree.entry tree.tip).nChainWork <
    (tree.entry pindex).nChainWork)) tree.mapBlockIndex
  rw [effort, pow_two, Nat.succ_mul]
  omega

omit hidx hcalm hrecon hstart in
theorem Advanced.effort_lt {fInvalidFound : Bool}
    (hadv : Advanced params tree next ref pindexMostWork (tree.entry tree.tip).nChainWork
      fInvalidFound) (hmoves : Moves params env tree next) (hgrown : next.Grown params)
    (hreach : fInvalidFound = false → next.tip ≠ pindexMostWork) :
    next.effort < tree.effort := by
  have hmap := mapBlockIndex_of_moves hmoves
  have hshrunk := shrunk_of_moves hmoves
  have hkept : ∀ pindex ∈ tree.mapBlockIndex, (!(next.entry pindex).failed) = true →
      (!(tree.entry pindex).failed) = true := by
    intro pindex _ hvalid
    rw [Bool.not_eq_true'] at hvalid ⊢
    exact Bool.eq_false_iff.2 fun hfail =>
      Bool.eq_false_iff.1 hvalid (hshrunk.failed pindex hfail)
  rw [effort, effort, hmap]
  cases fInvalidFound with
  | true =>
    obtain ⟨pindex, hin, hpre, hmark⟩ := hadv
    have hfewer := countP_lt_countP hkept hin (by rw [hpre]; rfl) (by rw [hmark]; rfl)
    have hwork := @countP_le_length _ (fun pindex => decide ((next.entry next.tip).nChainWork <
      (next.entry pindex).nChainWork)) tree.mapBlockIndex
    have hstep := Nat.mul_le_mul_right (tree.mapBlockIndex.length + 1) hfewer
    rw [Nat.succ_mul] at hstep
    omega
  | false =>
    have hmore := hadv.2.resolve_left (hreach rfl)
    have hvalid := Nat.mul_le_mul_right (tree.mapBlockIndex.length + 1) (countP_mono_left hkept)
    refine Nat.add_lt_add_of_le_of_lt hvalid (countP_lt_countP ?_ (hmap ▸ hgrown.tip) ?_ ?_)
    · intro pindex _ hgreater
      rw [decide_eq_true_eq, hshrunk.nChainWork pindex] at hgreater
      exact decide_eq_true (hmore.trans hgreater)
    · rw [hshrunk.nChainWork] at hmore
      exact decide_eq_true hmore
    · exact decide_eq_false (lt_irrefl _)

/-- With enough rounds `ActivateBestChain` completes, and the invariant holds at the new tip. -/
theorem activateBestChain_indexed {rounds : ℕ} (hrounds : tree.effort < rounds) :
    ∃ next, activateBestChain params env rounds start tree = .ok (.done, next) ∧
      next.Indexed params next.tip := by
  induction rounds generalizing start tree ref with
  | zero => exact absurd hrounds (Nat.not_lt_zero _)
  | succ rounds ih =>
    obtain ⟨found, mid, hfind, hmid, hmidRecon, htgt⟩ := mostWork_indexed hidx hrecon hstart
    have hsearch := (mostWork_moves env hidx.grown (fun pindex hpidx =>
      ⟨hidx.grown.candidates _ (hstart pindex hpidx).candidate, (hstart pindex hpidx).usable⟩)
      hfind).1
    rw [activateBestChain, hfind]
    simp only
    split_ifs with htip
    · exact ⟨mid, rfl, hmid.at_tip (htip ▸ htgt.notWorse)⟩
    · obtain ⟨fInvalidFound, stepped, hstep, ref', hindexed', hreconnects', hadv⟩ :=
        activateBestChainStep_indexed hmid hcalm hmidRecon htgt
      have hmoves := hsearch.trans (activateBestChainStep_moves hmid.grown
        (hmid.grown.candidates _ htgt.candidate) htgt.usable hstep).1
      have hwork : (mid.entry mid.tip).nChainWork = (tree.entry tree.tip).nChainWork := by
        rw [mostWork_tip hidx.grown hfind, (shrunk_of_moves hsearch).nChainWork]
      have hless : (fInvalidFound = false → stepped.tip ≠ found) → stepped.effort < rounds :=
        fun hreach => ((hwork ▸ hadv.of_moves hsearch).effort_lt hmoves hindexed'.grown
          hreach).trans_le (Nat.lt_succ_iff.1 hrounds)
      rw [hstep]
      cases fInvalidFound with
      | true => exact ih hindexed' hreconnects' (by simp) (hless (by simp))
      | false =>
        simp only
        split_ifs with hreach
        · exact ⟨stepped, rfl, hindexed'.at_tip (hreach ▸ hadv.1.notWorse)⟩
        · refine ih hindexed' hreconnects' (fun pindex hpidx => ?_) (hless fun _ => hreach)
          cases hpidx
          exact hadv.1

end

end

end activation

section invalidation

variable {params : TreeParams} {env : ActivateEnv} {tree next : BlockTree}
  {ref pindex : CBlockIndex} {marked : List CBlockIndex}

theorem Invalidated.flagged (hinval : Invalidated params tree marked pindex next) :
    Flagged tree next where
  mapBlockIndex := hinval.mapBlockIndex
  mapBlocksUnlinked := hinval.mapBlocksUnlinked
  entry := fun other => by
    rw [hinval.entry]
    split_ifs <;> rfl
  grows := fun other hmark => by
    rw [hinval.entry]
    simp only
    split_ifs
    · rfl
    · rfl
    · exact hmark
    · exact hmark

/-- `InvalidateBlock` after disconnecting: the loop over the index completes the candidates above
the new tip. -/
theorem Indexed.invalidated (hidx : tree.Indexed params ref)
    (hinval : Invalidated params tree marked pindex next)
    (hmarked : ∀ other ∈ marked, pindex ∈ other.ancestors) (hgrown : next.Grown params)
    (hsound : next.FailedSound) (hclose : next.ScriptsClosed) : next.Indexed params next.tip := by
  have hflag := hinval.flagged
  have hrank : ∀ other, next.rank params other = tree.rank params other := hflag.marked.rank
  have hself : (next.entry pindex).failedValid = true := by
    rw [hinval.entry]
    simp only [if_true]
  have hentries : ∀ other ∈ tree.mapBlockIndex, (next.entry other).Ok := by
    intro other ho
    have hok := hidx.entries other ho
    rw [hflag.entry]
    exact ⟨hok.level, hok.data, hok.transactions, hok.scripts, hok.undo, hok.order⟩
  have hflags : ∀ other ∈ tree.mapBlockIndex, (next.entry other).failed = true →
      ¬ next.Clean other := by
    intro other ho hmark hclean
    have hout : pindex ∉ other.ancestors := by
      intro hbelow
      have hbad := hclean pindex hbelow
      rw [hself] at hbad
      cases hbad
    have hne : other ≠ pindex := fun heq => hout (heq ▸ ancestors_self _)
    have hnot : other ∉ marked := fun hmem => hout (hmarked other hmem)
    rw [hinval.entry] at hmark
    simp only [hne, hnot, if_false] at hmark
    exact hidx.flags other ho hmark (hclean.of_grows fun low _ => hflag.grows low)
  have htip : next.tip ∈ tree.mapBlockIndex := hinval.mapBlockIndex ▸ hgrown.tip
  refine hidx.of_marked hflag.marked hgrown hsound hclose hentries hflags ⟨?_, ?_, ?_⟩ htip
    hgrown.usable hclose.tip
  · intro other ho
    rcases (hinval.candidates other).1 ho with ⟨hold, -⟩ | ⟨-, -, hlink, -⟩
    · rw [hflag.marked.nChainTx]
      exact hidx.ranked.linked other hold
    · exact hlink
  · intro other ho
    rcases (hinval.candidates other).1 ho with ⟨hold, -⟩ | ⟨-, -, -, hgood⟩
    · rw [hrank, hrank, hinval.tip]
      exact hidx.ranked.notWorse other hold
    · exact less_eq_false_iff.1 hgood
  · intro other ho hlink hclean hgood
    rw [hinval.mapBlockIndex] at ho
    refine (hinval.candidates other).2 (.inr ⟨ho, ?_, hlink, less_eq_false_iff.2 hgood⟩)
    have hvalid : (next.entry other).failed = false := by
      by_contra hmark
      exact hflags other ho (by simpa using hmark) hclean
    have harrived := (hidx.linking.chainTx other ho not_mem_nil).1
      (by rwa [hflag.marked.nChainTx] at hlink)
    rw [BlockEntry.isValid, hvalid]
    refine decide_eq_true ((hentries other ho).transactions.2 ?_)
    rw [hflag.marked.nTx]
    exact harrived.1

theorem Indexed.invalidateBlock (hidx : tree.Indexed params tree.tip) (env : ActivateEnv)
    (hin : pindex ∈ tree.mapBlockIndex) :
    (tree.invalidateBlock params env pindex).2.mapBlockIndex = tree.mapBlockIndex ∧
      ∃ ref, (tree.invalidateBlock params env pindex).2.Indexed params ref := by
  have hgrown := hidx.grown.invalidateBlock env hin
  have hsound := hidx.sound.invalidateBlock params env pindex
  have hclose := hidx.closed.invalidateBlock params env pindex
  obtain ⟨low, hlow, hmoves, hstopped | ⟨hout, hinval⟩⟩ :=
    invalidateBlock_spec params env tree pindex
  · rw [hstopped]
    exact ⟨rfl, tree.tip, hidx.disconnect hlow (hidx.grown.moves hmoves)⟩
  · exact ⟨hinval.mapBlockIndex, _,
      (hidx.disconnect hlow (hidx.grown.moves hmoves)).invalidated hinval
      (fun other ho => mem_ancestors_of_invalidatedAbove ho) hgrown hsound hclose⟩

theorem Reconnects.invalidateBlock (hrecon : tree.Reconnects env) (params : TreeParams)
    (other : ActivateEnv) (pindex : CBlockIndex) :
    (tree.invalidateBlock params other pindex).2.Reconnects env := by
  obtain ⟨low, hlow, hmoves, hstopped | ⟨hout, hinval⟩⟩ :=
    invalidateBlock_spec params other tree pindex
  · rw [hstopped]
    exact hrecon
  · intro block hblk hlevel
    rw [hinval.mapBlockIndex] at hblk
    rw [hinval.flagged.entry] at hlevel
    exact hrecon block hblk hlevel

end invalidation

end BlockTree

end Catoshi
