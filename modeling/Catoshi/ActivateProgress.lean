/-
The loop of `ActivateBestChain`: an iteration brings the tip nearer to its block or takes a
candidate away, unless the next block is refused and stays a candidate.
-/
import Catoshi.BlockIndexRuns
import Catoshi.UndoInverse
import Catoshi.Tips

namespace Catoshi

open CBlockIndex List

/-! ### Distance in the tree -/

namespace CBlockIndex

/-- How many blocks are below just one of two blocks. -/
def distance (tip target : CBlockIndex) : ℕ :=
  (symmDiff tip.ancestors.toFinset target.ancestors.toFinset).card

variable {tip : CBlockIndex} {target fork : CBlockIndex}

theorem mem_between_iff {block : CBlockIndex} :
    block ∈ symmDiff tip.ancestors.toFinset target.ancestors.toFinset ↔
      block ∈ tip.ancestors ∧ block ∉ target.ancestors ∨
        block ∈ target.ancestors ∧ block ∉ tip.ancestors := by
  simp only [Finset.mem_symmDiff, mem_toFinset]

/-- Every block on the way from the fork to the target is nearer than the start. -/
theorem distance_lt {mid : CBlockIndex}
    (hcommon : ∀ block ∈ target.ancestors, block ∈ tip.ancestors → block ∈ fork.ancestors)
    (hmid : mid ∈ target.ancestors) (habove : fork ∈ mid.ancestors) (hne : mid ≠ tip) :
    mid.distance target < tip.distance target := by
  have hbelow : ∀ block ∈ mid.ancestors, block ∈ target.ancestors := fun block hblk =>
    ancestors_trans hblk hmid
  apply Finset.card_lt_card
  apply Finset.ssubset_iff_subset_ne.2
  constructor
  · intro block hblk
    apply mem_between_iff.2
    rcases mem_between_iff.1 hblk with ⟨hin, hout⟩ | ⟨hin, hout⟩
    · exact absurd (hbelow block hin) hout
    · exact .inr ⟨hin, fun htip =>
        hout (ancestors_trans (hcommon block hin htip) habove)⟩
  · intro hsame
    by_cases htip : tip ∈ target.ancestors
    · -- the target is above the tip, and so is the new block
      have hfar : mid ∉ tip.ancestors := by
        intro hlow
        have hends := hcommon tip htip (ancestors_self tip)
        exact hne (ancestors_antisymm hlow (ancestors_trans hends habove))
      have hmem := mem_between_iff.2 (.inr ⟨hmid, hfar⟩)
      rw [← hsame] at hmem
      rcases mem_between_iff.1 hmem with ⟨-, hout⟩ | ⟨-, hout⟩
      · exact hout hmid
      · exact hout (ancestors_self mid)
    · have hmem := mem_between_iff.2 (.inl ⟨ancestors_self tip, htip⟩)
      rw [← hsame] at hmem
      rcases mem_between_iff.1 hmem with ⟨hin, -⟩ | ⟨hin, -⟩
      · exact htip (hbelow tip hin)
      · exact htip hin

/-- A chain holds one block above a block. -/
theorem eq_of_pprev {first second pprev : CBlockIndex} (hfst : first ∈ tip.ancestors)
    (hsnd : second ∈ tip.ancestors) (hprev : first.pprev = some pprev)
    (ho : second.pprev = some pprev) : first = second := by
  have hheight : first.nHeight = second.nHeight := by
    rw [nHeight_of_pprev hprev, nHeight_of_pprev ho]
  have hf := getAncestor_eq_some_iff.2 hfst
  rw [hheight, getAncestor_eq_some_iff.2 hsnd] at hf
  exact (Option.some.inj hf).symm

theorem head_above (hne : tip ≠ fork) : (tip.above fork).head? = some tip := by
  cases tip with
  | genesis | child =>
    rw [above, if_neg hne]
    rfl

end CBlockIndex

namespace BlockTree

variable {block : CBlockIndex}

theorem find_ancestor_highest {start low : CBlockIndex} {test : CBlockIndex → Bool}
    (hfind : start.ancestors.find? test = some low) (hblk : block ∈ start.ancestors)
    (htest : test block = true) : block ∈ low.ancestors := by
  induction start with
  | genesis hash time =>
    obtain rfl := mem_singleton.1 (mem_of_find?_eq_some hfind)
    exact hblk
  | child pprev hash time ih =>
    rw [ancestors, List.find?_cons] at hfind
    split at hfind
    · cases hfind
      exact hblk
    · next hfails =>
      rcases mem_cons.1 hblk with rfl | hbelow
      · rw [htest] at hfails
        cases hfails
      · exact ih hfind hbelow

variable {next tree : BlockTree} {params : TreeParams} {env : ActivateEnv}

/-- The fork is the highest block the two chains share. -/
theorem findFork_highest {pindex fork : CBlockIndex} (hfork : tree.findFork pindex = some fork)
    (hblk : block ∈ pindex.ancestors) (htip : block ∈ tree.tip.ancestors) :
    block ∈ fork.ancestors := by
  obtain ⟨start, hstart, hfind⟩ := Option.bind_eq_some_iff.1 hfork
  apply find_ancestor_highest hfind _ (contains_iff.2 htip)
  split_ifs at hstart with hhigher
  · obtain ⟨other, ho, hmem, hheight, -⟩ := exists_getAncestor hhigher.le
    obtain rfl := Option.some.inj (hstart.symm.trans ho)
    exact mem_ancestors_of_le hblk hmem (hheight ▸ nHeight_le_of_mem htip)
  · exact Option.some.inj hstart ▸ hblk

/-- The loop that connects blocks ends without a system error: nothing is left to connect, the
first block is refused, or the tip climbs. -/
inductive Climb (params : TreeParams) (env : ActivateEnv) (tree : BlockTree) :
    List CBlockIndex → Bool → BlockTree → Prop
  | nothing : Climb params env tree [] false tree
  | corrupt (first : CBlockIndex) (rest : List CBlockIndex)
      (hconnects : env.connects first = .corrupt) :
      Climb params env tree (first :: rest) true tree
  | invalid (first : CBlockIndex) (rest : List CBlockIndex)
      (hconnects : env.connects first = .invalid) :
      Climb params env tree (first :: rest) true (tree.invalidBlockFound params first)
  | climbed (first : CBlockIndex) (rest : List CBlockIndex) (fInvalidFound : Bool)
      (next : BlockTree) (hconnects : env.connects first = .connected)
      (hmem : next.tip ∈ first :: rest) (habove : first ∈ next.tip.ancestors) :
      Climb params env tree (first :: rest) fInvalidFound next

theorem connectBlocks_climb {oldWork : ℕ} {blocks : List CBlockIndex} {fInvalidFound : Bool}
    (hpath : List.IsChain (fun low high => pprev high = some low) (tree.tip :: blocks))
    (hconn : connectBlocks params env oldWork blocks tree = .ok (some fInvalidFound, next)) :
    Climb params env tree blocks fInvalidFound next := by
  induction blocks generalizing tree with
  | nil =>
    cases hconn
    exact .nothing
  | cons first rest ih =>
    obtain ⟨hprev, hrest⟩ := isChain_cons_cons.1 hpath
    rw [connectBlocks, if_neg (not_not.2 hprev)] at hconn
    split at hconn
    · next hconns =>
      split at hconn
      · cases hconn
      · next pruned hprune =>
        have htip : pruned.tip = first := by
          rw [pruneCandidates_eq hprune]
          rfl
        have hstays : ∀ (found : Bool) (last : BlockTree), last.tip = pruned.tip →
            Climb params env tree (first :: rest) found last := by
          intro found last hlast
          rw [htip] at hlast
          exact .climbed first rest found last hconns (hlast ▸ mem_cons_self)
            (hlast ▸ ancestors_self first)
        split at hconn
        · cases hconn
          exact hstays false next rfl
        · -- the rest is connected on top of the first block
          cases ih (htip ▸ hrest) hconn with
          | nothing => exact hstays false _ rfl
          | corrupt second rest hsnd => exact hstays true _ rfl
          | invalid second rest hsnd =>
            exact hstays true _ (invalidBlockFound_keeps tip)
          | climbed second rest fInvalidFound next hsnd hmem habove =>
            have hbelow := mem_of_pprev (isChain_cons_cons.1 hrest).1
            exact .climbed first _ _ _ hconns (mem_cons_of_mem _ hmem)
              (ancestors_trans hbelow habove)
    · next hconns =>
      cases hconn
      exact .invalid first rest hconns
    · next hconns =>
      cases hconn
      exact .corrupt first rest hconns
    · cases hconn

end BlockTree

/-! ### Iterations -/

/-- Where `ActivateBestChain` stands when an iteration begins. -/
structure ChainLoop where
  pindexMostWork : Option CBlockIndex
  tree : BlockTree

/-- An iteration ends: the call returns, or the loop goes on after going for a chosen block. -/
inductive Iteration where
  | returned (result : BlockTree.Activation) (tree : BlockTree)
  | again (chosen : CBlockIndex) (next : ChainLoop)

namespace ChainLoop

open BlockTree

def iteration (params : TreeParams) (env : ActivateEnv) (loop : ChainLoop) :
    Except Fault Iteration :=
  match loop.tree.mostWork params loop.pindexMostWork with
  | .error fault => .error fault
  | .ok (none, tree) => .ok (.returned .done tree)
  | .ok (some chosen, tree) =>
    if chosen = tree.tip then .ok (.returned .done tree)
    else
      match tree.activateBestChainStep params env chosen with
      | .error fault => .error fault
      | .ok (none, tree) => .ok (.returned .failed tree)
      | .ok (some true, tree) => .ok (.again chosen ⟨none, tree⟩)
      | .ok (some false, tree) =>
        if tree.tip = chosen then .ok (.returned .done tree)
        else .ok (.again chosen ⟨some chosen, tree⟩)

/-- The call is its iterations. -/
theorem activateBestChain_succ (params : TreeParams) (env : ActivateEnv) (rounds : ℕ)
    (loop : ChainLoop) :
    activateBestChain params env (rounds + 1) loop.pindexMostWork loop.tree =
      match loop.iteration params env with
      | .error fault => .error fault
      | .ok (.returned result tree) => .ok (result, tree)
      | .ok (.again _ next) =>
        activateBestChain params env rounds next.pindexMostWork next.tree := by
  rw [activateBestChain, iteration]
  rcases loop.tree.mostWork params loop.pindexMostWork with fault | ⟨_ | chosen, tree⟩
  · rfl
  · rfl
  · dsimp only
    by_cases htip : chosen = tree.tip
    · rw [if_pos htip, if_pos htip]
    · rw [if_neg htip, if_neg htip]
      rcases tree.activateBestChainStep params env chosen with
        fault | ⟨_ | ⟨_ | _⟩, stepped⟩
      · rfl
      · rfl
      · dsimp only
        by_cases hreach : stepped.tip = chosen
        · rw [if_pos hreach, if_pos hreach]
        · rw [if_neg hreach, if_neg hreach]
      · rfl

variable {params : TreeParams} {env : ActivateEnv} {loop next : ChainLoop} {chosen : CBlockIndex}

/-- The block is chosen without giving up another: the one chosen before, or the best candidate. -/
def Picks (params : TreeParams) (loop : ChainLoop) (chosen : CBlockIndex) : Prop :=
  loop.pindexMostWork = some chosen ∨
    loop.pindexMostWork = none ∧ loop.tree.bestCandidate params = some chosen

/-- The tip is strictly better or nearer to the chosen block, or a candidate was given up. -/
def Progress (params : TreeParams) (loop : ChainLoop) (chosen : CBlockIndex)
    (next : ChainLoop) : Prop :=
  loop.tree.less params loop.tree.tip next.tree.tip = true ∨
    next.tree.tip.distance chosen < loop.tree.tip.distance chosen ∨
    ∃ pindex ∈ loop.tree.setBlockIndexCandidates, pindex ∉ next.tree.setBlockIndexCandidates

/-- The next block towards the chosen one is refused, and no candidate is given up for it. -/
def Stalls (params : TreeParams) (env : ActivateEnv) (loop : ChainLoop) (chosen : CBlockIndex) :
    Prop :=
  loop.Picks params chosen ∧ ∃ pindex ∈ chosen.ancestors, pindex.pprev = some loop.tree.tip ∧
    (env.connects pindex = .corrupt ∨
      env.connects pindex = .invalid ∧ pindex ∉ loop.tree.setBlockIndexCandidates)

variable {mid last : BlockTree} {fInvalidFound : Bool}

/-- Choosing a block gives up a candidate unless it is picked at once. -/
theorem mostWork_picks (hgrown : loop.tree.Grown params)
    (hfind : loop.tree.mostWork params loop.pindexMostWork = .ok (some chosen, mid)) :
    mid.tip = loop.tree.tip ∧ (loop.Picks params chosen ∧ mid = loop.tree ∨
      ¬ loop.Picks params chosen ∧ ∃ pindex ∈ loop.tree.setBlockIndexCandidates,
        pindex ∉ mid.setBlockIndexCandidates) := by
  obtain ⟨pindexMostWork, tree⟩ := loop
  cases pindexMostWork with
  | some pindex =>
    cases hfind
    exact ⟨rfl, .inl ⟨.inl rfl, rfl⟩⟩
  | none =>
    let env : ActivateEnv := ⟨fun _ => .connected, fun _ => true⟩
    refine ⟨(findMostWorkChain_search env hgrown hfind).tip, ?_⟩
    rw [mostWork, findMostWorkChain] at hfind
    rcases bestCandidate_spec params tree with ⟨-, hno⟩ | ⟨best, hcand, hbest, -⟩
    · rw [hno] at hfind
      cases hfind
    · rw [hbest] at hfind
      dsimp only at hfind
      split at hfind
      · cases hfind
      · cases hfind
        exact .inl ⟨.inr ⟨rfl, hbest⟩, rfl⟩
      · next pindexTest fFailedChain hunusable =>
        rcases findUnusable_spec hgrown.usable hunusable with
          ⟨hno, -⟩ | ⟨bad, hbad, hsome, hreason⟩
        · cases hno
        · obtain ⟨rfl, rfl⟩ := Prod.mk.inj (Option.some.inj hsome)
          have hmove : Move params env tree _ := .discard best pindexTest hcand hbad hreason
          have hsearch := findMostWorkChain_search env (hgrown.move hmove) hfind
          obtain ⟨keep, hkeep⟩ := (shrunk_of_moves hsearch.moves).candidates
          have hgone : best ∉ mid.setBlockIndexCandidates := by
            rw [hkeep, mem_filter, mem_candidates_removeChain]
            rintro ⟨⟨-, hout, hne⟩, -⟩
            exact hout ((mem_above_iff hbad).2 ⟨ancestors_self best, hbad, hne⟩)
          refine .inr ⟨?_, best, hcand, hgone⟩
          rintro (hcached | ⟨-, hpicked⟩)
          · cases hcached
          · obtain rfl := Option.some.inj (hbest.symm.trans hpicked)
            exact hgone (hsearch.chosen _ rfl).1

variable {tree : BlockTree}

/-- What a step towards a block above or beside the tip comes to. -/
theorem step_climb
    (hstep : tree.activateBestChainStep params env chosen = .ok (some fInvalidFound, last)) :
    ∃ fork, tree.findFork chosen = some fork ∧
      Climb params env { tree with tip := fork } (chosen.above fork).reverse fInvalidFound
        last := by
  rw [activateBestChainStep] at hstep
  obtain ⟨fork, -, -, herror | ⟨hfork, hok⟩⟩ :=
    disconnectTo_spec params env (tree.findFork chosen) tree
  · rw [herror] at hstep
    cases hstep
  · rw [hok] at hstep
    have hmem := (mem_of_findFork hfork.symm).1
    exact ⟨fork, hfork.symm, connectBlocks_climb (isChain_above hmem) hstep⟩

section

variable (hgrown : loop.tree.Grown params)
  (hround : loop.iteration params env = .ok (.again chosen next))

include hgrown hround

omit hgrown in
theorem of_again :
    ∃ mid fInvalidFound, loop.tree.mostWork params loop.pindexMostWork = .ok (some chosen, mid) ∧
      mid.activateBestChainStep params env chosen = .ok (some fInvalidFound, next.tree) ∧
      next.pindexMostWork = (if fInvalidFound then none else some chosen) ∧
      (fInvalidFound = false → next.tree.tip ≠ chosen) := by
  rw [iteration] at hround
  split at hround
  · cases hround
  · cases hround
  · next found mid hfind =>
    split at hround
    · cases hround
    · split at hround
      · cases hround
      · cases hround
      · next stepped hstep =>
        cases hround
        exact ⟨mid, true, hfind, hstep, rfl, nofun⟩
      · next stepped hstep =>
        split_ifs at hround with hreach
        · cases hround
        · cases hround
          exact ⟨mid, false, hfind, hstep, rfl, fun _ => hreach⟩

/-- The loop goes on: the tip is nearer to the chosen block, or the next block was refused. -/
inductive Attempt (params : TreeParams) (env : ActivateEnv) (chosen : CBlockIndex)
    (mid : BlockTree) (next : ChainLoop) : Prop
  | moved (hmoved : next.tree.tip ≠ mid.tip)
      (hnearer : next.tree.tip.distance chosen < mid.tip.distance chosen)
      (hconnected : ∀ pindex ∈ chosen.ancestors, pindex.pprev = some mid.tip →
        env.connects pindex = .connected)
  | corrupt (first : CBlockIndex) (hmem : first ∈ chosen.ancestors)
      (hprev : first.pprev = some mid.tip) (hconnects : env.connects first = .corrupt)
      (hnext : next = ⟨none, mid⟩)
  | invalid (first : CBlockIndex) (hmem : first ∈ chosen.ancestors)
      (hprev : first.pprev = some mid.tip) (hconnects : env.connects first = .invalid)
      (hnext : next = ⟨none, mid.invalidBlockFound params first⟩)

omit hgrown hround in
theorem attempt_of_step
    (hstep : mid.activateBestChainStep params env chosen = .ok (some fInvalidFound, next.tree))
    (hnext : next.pindexMostWork = if fInvalidFound then none else some chosen)
    (hreach : fInvalidFound = false → next.tree.tip ≠ chosen) :
    Attempt params env chosen mid next := by
  obtain ⟨pindexMostWork, last⟩ := next
  obtain ⟨fork, hfork, hclimb⟩ := step_climb hstep
  obtain ⟨hbelow, hactive⟩ := mem_of_findFork hfork
  have hcommon : ∀ block ∈ chosen.ancestors, block ∈ mid.tip.ancestors →
      block ∈ fork.ancestors := fun block => findFork_highest hfork
  have hends : mid.tip ∈ chosen.ancestors → fork = mid.tip := fun hmem =>
    ancestors_antisymm hactive (hcommon _ hmem (ancestors_self _))
  -- a block refused right above the fork
  have hleft : last.tip = fork → fork ≠ mid.tip →
      Attempt params env chosen mid ⟨pindexMostWork, last⟩ := by
    intro htip hne
    subst htip
    refine .moved hne (distance_lt hcommon hbelow
      (ancestors_self _) hne) fun pindex hmem hprev => ?_
    exact absurd (hends (ancestors_trans (mem_of_pprev hprev) hmem)) hne
  have hpath := isChain_above hbelow
  have hmember : ∀ block ∈ (chosen.above fork).reverse,
      block ∈ chosen.ancestors ∧ fork ∈ block.ancestors ∧ block ≠ fork := fun block hblk =>
    (mem_above_iff hbelow).1 (mem_reverse.1 hblk)
  generalize hblocks : (chosen.above fork).reverse = blocks at hclimb hpath hmember
  cases hclimb with
  | nothing =>
    apply absurd _ (hreach rfl)
    by_contra hne
    have hhead := head_above fun heq => hne heq.symm
    rw [reverse_eq_nil_iff.1 hblocks] at hhead
    cases hhead
  | corrupt first rest hconns =>
    by_cases hsame : fork = mid.tip
    · subst hsame
      obtain rfl : pindexMostWork = none := hnext
      exact .corrupt first (hmember first mem_cons_self).1 (isChain_cons_cons.1 hpath).1 hconns rfl
    · exact hleft rfl hsame
  | invalid first rest hconns =>
    by_cases hsame : fork = mid.tip
    · subst hsame
      obtain rfl : pindexMostWork = none := hnext
      exact .invalid first (hmember first mem_cons_self).1 (isChain_cons_cons.1 hpath).1 hconns rfl
    · exact hleft (invalidBlockFound_keeps tip) hsame
  | climbed first rest fInvalidFound last hconns hmem habove =>
    obtain ⟨htgt, hover, -⟩ := hmember _ hmem
    obtain ⟨hfst, hfirstOver, hfirstNe⟩ := hmember first mem_cons_self
    have hmoved : last.tip ≠ mid.tip := by
      intro heq
      rw [heq] at habove
      exact hfirstNe (ancestors_antisymm (hcommon first hfst habove) hfirstOver)
    refine .moved hmoved (distance_lt hcommon htgt hover hmoved) ?_
    intro pindex hpidx hprev
    have hsame := hends (ancestors_trans (mem_of_pprev hprev) hpidx)
    have hfirstPrev := (isChain_cons_cons.1 hpath).1
    rw [hsame] at hfirstPrev
    exact eq_of_pprev hpidx hfst hprev hfirstPrev ▸ hconns

/-- An iteration makes progress just if it does not stall. -/
theorem progress_iff_not_stalls :
    loop.Progress params chosen next ↔ ¬ loop.Stalls params env chosen := by
  obtain ⟨mid, fInvalidFound, hfind, hstep, hnext, hreach⟩ := of_again hround
  obtain ⟨htip, hpicks⟩ := mostWork_picks hgrown hfind
  have hsettled : ∀ {tree : BlockTree}, tree.tip = loop.tree.tip →
      (∀ pindex ∈ loop.tree.setBlockIndexCandidates, pindex ∈ tree.setBlockIndexCandidates) →
      ¬ loop.Progress params chosen ⟨none, tree⟩ := by
    rintro tree hsame hkept (hbetter | hnearer | ⟨pindex, hmem, hgone⟩)
    · rw [hsame, less_iff] at hbetter
      exact lt_irrefl _ hbetter
    · rw [hsame] at hnearer
      exact lt_irrefl _ hnearer
    · exact hgone (hkept pindex hmem)
  cases attempt_of_step hstep hnext hreach with
  | moved hmoved hnearer hconnd =>
    rw [htip] at hnearer hconnd
    apply iff_of_true (.inr (.inl hnearer))
    rintro ⟨-, pindex, hmem, hprev, hconns⟩
    rw [hconnd pindex hmem hprev] at hconns
    rcases hconns with hcorrupt | ⟨hinvalid, -⟩
    · cases hcorrupt
    · cases hinvalid
  | corrupt first hmem hprev hconns hnext =>
    subst hnext
    rcases hpicks with ⟨hpicked, rfl⟩ | ⟨hpicked, hgone⟩
    · apply iff_of_false (hsettled rfl fun _ hpidx => hpidx)
      exact not_not.2 ⟨hpicked, first, hmem, hprev, .inl hconns⟩
    · exact iff_of_true (.inr (.inr hgone)) fun hstalls => hpicked hstalls.1
  | invalid first hmem hprev hconns hnext =>
    subst hnext
    rcases hpicks with ⟨hpicked, rfl⟩ | ⟨hpicked, pindex, hpidx, hgone⟩
    · by_cases hcand : first ∈ loop.tree.setBlockIndexCandidates
      · apply iff_of_true
        · refine .inr (.inr ⟨first, hcand, fun hkept => ?_⟩)
          exact ((mem_candidates_invalid _ _ _ _).1 hkept).2 rfl
        · rintro ⟨-, pindex, hpidx, hpprev, hrefused⟩
          obtain rfl := eq_of_pprev hpidx hmem hpprev hprev
          rcases hrefused with hcorrupt | ⟨-, hnot⟩
          · rw [hconns] at hcorrupt
            cases hcorrupt
          · exact hnot hcand
      · apply iff_of_false
        · apply hsettled (invalidBlockFound_keeps tip)
          intro pindex hpidx
          apply (mem_candidates_invalid _ _ _ _).2
          exact ⟨hpidx, fun heq => hcand (heq ▸ hpidx)⟩
        · exact not_not.2 ⟨hpicked, first, hmem, hprev, .inr ⟨hconns, hcand⟩⟩
    · apply iff_of_true _ fun hstalls => hpicked hstalls.1
      refine .inr (.inr ⟨pindex, hpidx, fun hkept => ?_⟩)
      exact hgone ((mem_candidates_invalid _ _ _ _).1 hkept).1

/-- A block that may be corrupt leaves the loop as it was. -/
theorem next_of_corrupt
    (hpicks : loop.Picks params chosen) {first : CBlockIndex} (hmem : first ∈ chosen.ancestors)
    (hprev : first.pprev = some loop.tree.tip) (hconns : env.connects first = .corrupt) :
    next = ⟨none, loop.tree⟩ := by
  obtain ⟨mid, fInvalidFound, hfind, hstep, hnext, hreach⟩ := of_again hround
  obtain ⟨-, ⟨-, rfl⟩ | ⟨hnot, -⟩⟩ := mostWork_picks hgrown hfind
  · cases attempt_of_step hstep hnext hreach with
    | moved _ _ hconnd =>
      rw [hconnd first hmem hprev] at hconns
      cases hconns
    | corrupt _ _ _ _ hnext => exact hnext
    | invalid second hsnd hbelow hinvalid hnext =>
      rw [eq_of_pprev hmem hsnd hprev hbelow, hinvalid] at hconns
      cases hconns
  · exact absurd hpicks hnot

end

/-- A loop that comes back to where it was is only left by a shutdown. -/
theorem activateBestChain_of_repeat
    (hround : loop.iteration params env = .ok (.again chosen loop)) (rounds : ℕ) :
    activateBestChain params env rounds loop.pindexMostWork loop.tree =
      .ok (.shutdown, loop.tree) := by
  induction rounds with
  | zero => rfl
  | succ rounds ih =>
    rw [activateBestChain_succ, hround]
    exact ih

/-! ### Whole calls -/

/-- The tree is grown, and the block to go for can be used. -/
structure Ready (params : TreeParams) (loop : ChainLoop) : Prop where
  grown : loop.tree.Grown params
  mostWork : ∀ pindex, loop.pindexMostWork = some pindex →
    pindex ∈ loop.tree.mapBlockIndex ∧ loop.tree.Usable pindex

def Round (params : TreeParams) (env : ActivateEnv) (loop next : ChainLoop) : Prop :=
  ∃ chosen, loop.iteration params env = .ok (.again chosen next)

def FreeRound (params : TreeParams) (env : ActivateEnv) (loop next : ChainLoop) : Prop :=
  ∃ chosen, loop.iteration params env = .ok (.again chosen next) ∧ ¬ loop.Stalls params env chosen

theorem Ready.round (hready : loop.Ready params)
    (hround : loop.iteration params env = .ok (.again chosen next)) :
    next.Ready params ∧ Shrunk loop.tree next.tree := by
  obtain ⟨mid, fInvalidFound, hfind, hstep, hnext, -⟩ := of_again hround
  obtain ⟨hmoves, hspec⟩ := mostWork_moves env hready.grown hready.mostWork hfind
  obtain ⟨hknown, huse⟩ := hspec chosen rfl
  have hmid := hready.grown.moves hmoves
  obtain ⟨hmoved, hkeeps⟩ := activateBestChainStep_moves hmid hknown huse hstep
  refine ⟨⟨hmid.moves hmoved, fun pindex hpidx => ?_⟩, shrunk_of_moves (hmoves.trans hmoved)⟩
  rw [hnext] at hpidx
  cases fInvalidFound with
  | true => cases hpidx
  | false =>
    obtain rfl := Option.some.inj hpidx
    exact ⟨mapBlockIndex_of_moves hmoved ▸ hknown, hkeeps rfl⟩

theorem bestCandidate_congr (hshrunk : Shrunk tree last)
    (hsame : last.setBlockIndexCandidates = tree.setBlockIndexCandidates) :
    last.bestCandidate params = tree.bestCandidate params := by
  have hbetter : last.better params = tree.better params := by
    funext best pindex
    simp only [better, less_congr hshrunk.nChainWork hshrunk.nSequenceId]
  rw [bestCandidate, bestCandidate, hbetter, hsame]

/-- The block the next iteration goes for if it gives up no candidate. -/
def target (params : TreeParams) (loop : ChainLoop) : Option CBlockIndex :=
  loop.pindexMostWork.or (loop.tree.bestCandidate params)

/-- What is left to do: the candidates, whether the block gone for is not the best one, and the
way. -/
def remaining (params : TreeParams) (loop : ChainLoop) : ℕ ×ₗ ℕ ×ₗ ℕ :=
  toLex (loop.tree.setBlockIndexCandidates.length,
    toLex (if loop.target params = loop.tree.bestCandidate params then 0 else 1,
      (loop.target params).elim 0 loop.tree.tip.distance))

theorem target_of_picks (hpicks : loop.Picks params chosen) : loop.target params = some chosen := by
  rcases hpicks with hcached | ⟨hno, hbest⟩
  · rw [target, hcached, Option.some_or]
  · rw [target, hno, Option.none_or, hbest]

/-- Without a stall or a candidate given up the tip comes nearer. -/
theorem Ready.nearer (hready : loop.Ready params)
    (hround : loop.iteration params env = .ok (.again chosen next))
    (hfree : ¬ loop.Stalls params env chosen)
    (hkept : ∀ pindex ∈ loop.tree.setBlockIndexCandidates,
      pindex ∈ next.tree.setBlockIndexCandidates) :
    loop.Picks params chosen ∧
      next.tree.tip.distance chosen < loop.tree.tip.distance chosen ∧
      (next.pindexMostWork = none ∨ next.pindexMostWork = some chosen) := by
  obtain ⟨mid, fInvalidFound, hfind, hstep, hnext, hreach⟩ := of_again hround
  obtain ⟨-, ⟨hpicks, rfl⟩ | ⟨-, pindex, hpidx, hgone⟩⟩ := mostWork_picks hready.grown hfind
  · cases attempt_of_step hstep hnext hreach with
    | moved hmoved hnearer hconnd =>
      refine ⟨hpicks, hnearer, ?_⟩
      cases fInvalidFound with
      | true => exact .inl hnext
      | false => exact .inr hnext
    | corrupt first hmem hprev hconns hnext =>
      exact absurd ⟨hpicks, first, hmem, hprev, .inl hconns⟩ hfree
    | invalid first hmem hprev hconns hnext =>
      apply absurd _ hfree
      refine ⟨hpicks, first, hmem, hprev, .inr ⟨hconns, fun hcand => ?_⟩⟩
      have hstill := hkept first hcand
      rw [hnext] at hstill
      exact ((mem_candidates_invalid _ _ _ _).1 hstill).2 rfl
  · obtain ⟨hmoves, hspec⟩ := mostWork_moves env hready.grown hready.mostWork hfind
    obtain ⟨hknown, huse⟩ := hspec chosen rfl
    have hmoved := activateBestChainStep_moves (hready.grown.moves hmoves) hknown huse hstep
    obtain ⟨keep, hkeep⟩ := (shrunk_of_moves hmoved.1).candidates
    have hstill := hkept pindex hpidx
    rw [hkeep] at hstill
    exact absurd (mem_filter.1 hstill).1 hgone

/-- An iteration that does not stall leaves less to do. -/
theorem remaining_lt (hready : loop.Ready params) (hround : FreeRound params env loop next) :
    next.remaining params < loop.remaining params := by
  obtain ⟨chosen, hround, hfree⟩ := hround
  obtain ⟨-, hshrunk⟩ := hready.round hround
  obtain ⟨keep, hkeep⟩ := hshrunk.candidates
  rw [remaining, remaining, Prod.Lex.toLex_lt_toLex, Prod.Lex.toLex_lt_toLex]
  by_cases hsame : next.tree.setBlockIndexCandidates = loop.tree.setBlockIndexCandidates
  · -- no candidate is given up, so the tip is nearer to the target
    obtain ⟨hpicks, hnearer, hnext⟩ := hready.nearer hround hfree (by rw [hsame]; exact fun _ => id)
    have hbest : next.tree.bestCandidate params = loop.tree.bestCandidate params :=
      bestCandidate_congr hshrunk hsame
    have htgt := target_of_picks hpicks
    refine .inr ⟨congrArg List.length hsame, ?_⟩
    by_cases hgoal : next.target params = some chosen
    · rw [hgoal, htgt, hbest]
      exact .inr ⟨rfl, hnearer⟩
    · -- the next iteration goes for the best candidate instead
      have hswitch : next.target params = loop.tree.bestCandidate params := by
        rw [target] at hgoal ⊢
        rcases hnext with hno | hsome
        · rw [hno, Option.none_or, hbest]
        · rw [hsome] at hgoal
          exact absurd rfl hgoal
      have ho : loop.target params ≠ loop.tree.bestCandidate params := by
        rw [htgt, ← hswitch]
        exact fun heq => hgoal heq.symm
      rw [hbest, if_pos hswitch, if_neg ho]
      exact .inl Nat.one_pos
  · left
    rw [hkeep]
    apply lt_of_le_of_ne (length_filter_le _ _)
    intro hlen
    exact hsame (hkeep.trans (filter_sublist.eq_of_length hlen))

theorem Ready.rounds (hready : loop.Ready params)
    (hrounds : Relation.ReflTransGen (Round params env) loop next) : next.Ready params := by
  induction hrounds with
  | refl => exact hready
  | tail _ hround ih =>
    obtain ⟨chosen, hround⟩ := hround
    exact (ih.round hround).1

theorem remaining_lt_of_rounds (hready : loop.Ready params)
    (hrounds : Relation.TransGen (FreeRound params env) loop next) :
    next.Ready params ∧ next.remaining params < loop.remaining params := by
  induction hrounds with
  | single hround =>
    obtain ⟨chosen, hagain, -⟩ := id hround
    exact ⟨(hready.round hagain).1, remaining_lt hready hround⟩
  | tail _ hround ih =>
    obtain ⟨chosen, hagain, -⟩ := id hround
    exact ⟨(ih.1.round hagain).1, (remaining_lt ih.1 hround).trans ih.2⟩

theorem ready_of_run {calls : List TreeCall} {nTime : UInt32} {nTx : ℕ}
    (hrun : Runs.run (BlockTree.call params) calls (initial params nTime nTx) = .ok tree) :
    (⟨none, tree⟩ : ChainLoop).Ready params := by
  have halways : Runs.Always (BlockTree.call params) (Grown params) calls
      (initial params nTime nTx) :=
    (Runs.throughout_true calls _).always (fun _ _ _ hgrown _ hcall => hgrown.call hcall)
      (grown_initial params nTime nTx)
  exact ⟨halways.last hrun, nofun⟩

/-- In every call made in a reachable state, an iteration after which the loop goes on makes
progress exactly if it does not stall, and a loop that does not stall never comes back to a
state it was in. -/
theorem activation_progress_iff {calls : List TreeCall} {nTime : UInt32} {nTx : ℕ}
    {tree : BlockTree} {env : ActivateEnv} {loop : ChainLoop}
    (hrun : Runs.run (BlockTree.call params) calls (initial params nTime nTx) = .ok tree)
    (hloop : Relation.ReflTransGen (Round params env) ⟨none, tree⟩ loop) :
    (∀ chosen next, loop.iteration params env = .ok (.again chosen next) →
      (loop.Progress params chosen next ↔ ¬ loop.Stalls params env chosen)) ∧
      ∀ later, Relation.TransGen (FreeRound params env) loop later → later ≠ loop := by
  have hready := (ready_of_run hrun).rounds hloop
  constructor
  · exact fun chosen next => progress_iff_not_stalls hready.grown
  · rintro later hrounds rfl
    exact lt_irrefl _ (remaining_lt_of_rounds hready hrounds).2

end ChainLoop

/-- What `ActivateBestChainStep` makes of the end of `ConnectTip`. -/
def Connection.ofResult : Except TipError Unit → Connection
  | .ok _ => .connected
  | .error (.connectBlockFailed reject) =>
    if reject.corruptionPossible then .corrupt else .invalid
  | .error .outOfDiskSpace => .systemError true
  | .error _ => .systemError false

namespace ActivateProgressWitness

open BlockTree ChainLoop FailedBlocksWitness InvalidHeadersWitness

def lower : CBlockIndex := .child (.genesis (hashOf 0) 0) (hashOf 1) 0

def upper : CBlockIndex := .child lower (hashOf 2) 0

def twoBlocks : List TreeCall := [.acceptBlock (validBody 0 1), .acceptBlock (validBody 1 2)]

/-- The block an iteration goes for, if the loop goes on. -/
def goesFor (env : ActivateEnv) (loop : ChainLoop) : Option CBlockIndex :=
  match loop.iteration params env with
  | .ok (.again chosen _) => some chosen
  | _ => none

theorem again_of_goesFor {env : ActivateEnv} {loop : ChainLoop} {chosen : CBlockIndex}
    (hgoes : goesFor env loop = some chosen) :
    ∃ next, loop.iteration params env = .ok (.again chosen next) := by
  rw [goesFor] at hgoes
  split at hgoes
  · next next hround =>
    obtain rfl := Option.some.inj hgoes
    exact ⟨next, hround⟩
  · cases hgoes

/-- Connecting the first of two blocks is progress on the way to the second. -/
theorem connecting_lower_is_progress :
    ∃ tree, Runs.run (BlockTree.call params) twoBlocks (initial params 0 1) = .ok tree ∧
      ∃ next, (⟨none, tree⟩ : ChainLoop).iteration params env = .ok (.again upper next) ∧
        (⟨none, tree⟩ : ChainLoop).Progress params upper next := by
  have hends : Runs.endsIn (BlockTree.call params) (fun tree =>
      decide (goesFor env ⟨none, tree⟩ = some upper)) twoBlocks (initial params 0 1) = true := by
    decide +kernel
  obtain ⟨tree, hrun, htest⟩ := Runs.exists_of_endsIn hends
  obtain ⟨next, hround⟩ := again_of_goesFor (of_decide_eq_true htest)
  refine ⟨tree, hrun, next, hround, ?_⟩
  apply ((activation_progress_iff hrun .refl).1 upper next hround).2
  rintro ⟨-, pindex, -, -, hcorrupt | ⟨hinvalid, -⟩⟩
  · cases hcorrupt
  · cases hinvalid

/-- The lower block as read from disk: the header is intact, but its merkle root is not that of the
transactions. -/
def corruptBlock : CBlock := ⟨hashOf 1, hashOf 4, 0, []⟩

def corruptContext : ValidationContext where
  params := ⟨hashOf 0, 150, 100000000, BaseBlob.null 32⟩
  checks := { UndoInverseWitness.checks with blockMerkleRoot := fun _ => (hashOf 9, false) }
  options := ⟨false, false, false⟩

def corruptNode : CChainState where
  pcoinsTip := .ofBase (.db UndoInverseWitness.database)
  tip := some (.genesis (hashOf 0) 0)
  store := ⟨fun pindex => if pindex = lower then some corruptBlock else none, fun _ => none, .empty⟩

/-- What connecting a block to the tip comes to. -/
def corruptEnv : ActivateEnv where
  connects pindex :=
    match corruptNode.connectTip corruptContext ⟨false, true⟩ pindex none with
    | .ok (result, _) => .ofResult result
    | .error _ => .systemError false
  disconnects _ := true

/-- The data of a block has been corrupted on disk.  The loop tries to connect it, changes
nothing and starts over until the node is shut down. -/
theorem corrupt_block_repeats_state :
    ∃ tree, Runs.run (BlockTree.call params) [.acceptBlock (validBody 0 1)]
        (initial params 0 1) = .ok tree ∧
      (⟨none, tree⟩ : ChainLoop).iteration params corruptEnv = .ok (.again lower ⟨none, tree⟩) ∧
      ¬ (⟨none, tree⟩ : ChainLoop).Progress params lower ⟨none, tree⟩ ∧
      ∀ rounds, activateBestChain params corruptEnv rounds none tree = .ok (.shutdown, tree) := by
  have hends : Runs.endsIn (BlockTree.call params) (fun tree =>
      decide (goesFor corruptEnv ⟨none, tree⟩ = some lower) &&
        decide (tree.bestCandidate params = some lower) &&
        decide (lower.pprev = some tree.tip))
      [.acceptBlock (validBody 0 1)] (initial params 0 1) = true := by decide +kernel
  obtain ⟨tree, hrun, htest⟩ := Runs.exists_of_endsIn hends
  simp only [Bool.and_eq_true, decide_eq_true_eq] at htest
  obtain ⟨⟨hgoes, hbest⟩, hprev⟩ := htest
  have hgrown := (ready_of_run hrun).grown
  have hcorrupt : corruptEnv.connects lower = .corrupt := by decide +kernel
  obtain ⟨next, hround⟩ := again_of_goesFor hgoes
  have hpicks : (⟨none, tree⟩ : ChainLoop).Picks params lower := .inr ⟨rfl, hbest⟩
  have hmem := ancestors_self lower
  obtain rfl := next_of_corrupt hgrown hround hpicks hmem hprev hcorrupt
  refine ⟨tree, hrun, hround, ?_, activateBestChain_of_repeat hround⟩
  intro hprogress
  exact (progress_iff_not_stalls hgrown hround).1 hprogress
    ⟨hpicks, lower, hmem, hprev, .inl hcorrupt⟩

end ActivateProgressWitness

end Catoshi
