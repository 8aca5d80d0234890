/-
Headers on an invalid chain: what it takes for `AcceptBlockHeader` to refuse every header with an
invalid ancestor.
-/
import Catoshi.FailedBlocks

namespace Catoshi

open CBlockIndex BlockTree

namespace BlockTree

/-! ### Script-valid blocks -/

/-- Ancestors of script-valid blocks and of the tip are script-valid, but for the genesis block. -/
structure ScriptsClosed (tree : BlockTree) : Prop where
  known : ∀ pindex ∈ tree.mapBlockIndex, blockValidScripts ≤ (tree.entry pindex).nValidity →
    ∀ other ∈ pindex.ancestors, other.pprev ≠ none →
      blockValidScripts ≤ (tree.entry other).nValidity
  tip : ∀ other ∈ tree.tip.ancestors, other.pprev ≠ none →
    blockValidScripts ≤ (tree.entry other).nValidity

variable {next tree : BlockTree} {params : TreeParams} {pindex : CBlockIndex} {env : ActivateEnv}

/-- No block becomes script-valid, and the tip moves down at most. -/
theorem ScriptsClosed.of_same (hclose : tree.ScriptsClosed)
    (hmap : next.mapBlockIndex = tree.mapBlockIndex) (htip : next.tip ∈ tree.tip.ancestors)
    (hlevel : ∀ pindex, blockValidScripts ≤ (next.entry pindex).nValidity ↔
      blockValidScripts ≤ (tree.entry pindex).nValidity) : next.ScriptsClosed where
  known := by
    simp only [hmap, hlevel]
    exact hclose.known
  tip := by
    simp only [hlevel]
    exact fun other ho => hclose.tip other (ancestors_trans ho htip)

variable {block : CBlockHeader} {result : Option CBlockIndex} {arrival : BlockArrival}
  {entry : BlockEntry}

theorem ScriptsClosed.headerStep (hclose : tree.ScriptsClosed) (hgrown : tree.Grown params)
    (hstep : HeaderStep params tree block result next) : next.ScriptsClosed := by
  cases hstep with
  | refused | known => exact hclose
  | added pprev hnew hprev hvalid hscrs =>
    constructor
    · intro pindex hin hlevel other ho hroot
      rcases List.mem_cons.1 hin with rfl | hold
      · rw [entry_grow_new] at hlevel
        change blockValidScripts ≤ blockValidTree at hlevel
        exact absurd hlevel (by decide)
      · rw [entry_grow_of_mem hnew hold] at hlevel
        rw [entry_grow_of_mem hnew (hgrown.ancestors hold ho)]
        exact hclose.known pindex hold hlevel other ho hroot
    · intro other ho hroot
      rw [entry_grow_of_mem hnew (hgrown.ancestors hgrown.tip ho)]
      exact hclose.tip other ho hroot
  | walked pprev failedit hprev hfail hmem hvalid =>
    refine hclose.of_same (invalidWalk_keeps mapBlockIndex) ?_ ?_
    · rw [invalidWalk_keeps BlockTree.tip]
      exact ancestors_self _
    · intro pindex
      rw [entry_invalidWalk]
      split <;> rfl

theorem ScriptsClosed.bodyStep (hclose : tree.ScriptsClosed)
    (hstep : BodyStep params arrival tree pindex next) : next.ScriptsClosed := by
  cases hstep with
  | same => exact hclose
  | refused reject hchecks hintact hdata =>
    refine hclose.of_same rfl (ancestors_self _) fun other => ?_
    rw [entry_markFailedValid]
    split <;> rfl
  | received hchecks hpos hdata =>
    have hlink := (queued_received params tree pindex arrival.nTx).linked
    refine hclose.of_same hlink.mapBlockIndex ?_ fun other => ?_
    · rw [hlink.tip]
      exact ancestors_self _
    · rw [hlink.entry, entry_stored]
      split
      · split
        · rfl
        · rw [le_max_iff, or_iff_left (by decide)]
      · rfl

/-- A block on the tip may become script-valid. -/
theorem ScriptsClosed.markScriptsValid (hclose : tree.ScriptsClosed)
    (hprev : pindex.pprev = some tree.tip) :
    (tree.markScriptsValid pindex).ScriptsClosed := by
  have hgrows : ∀ other, blockValidScripts ≤ (tree.entry other).nValidity →
      blockValidScripts ≤ ((tree.markScriptsValid pindex).entry other).nValidity := by
    intro other ho
    rw [entry_markScriptsValid]
    split
    · split
      · exact ho
      · exact le_max_of_le_left ho
    · exact ho
  constructor
  · intro block hin hlevel other ho hroot
    by_cases heq : block = pindex
    · subst heq
      rw [ancestors_of_pprev hprev, List.mem_cons] at ho
      rcases ho with rfl | hbelow
      · exact hlevel
      · exact hgrows other (hclose.tip other hbelow hroot)
    · rw [entry_markScriptsValid, if_neg heq] at hlevel
      exact hgrows other (hclose.known block hin hlevel other ho hroot)
  · exact fun other ho hroot => hgrows other (hclose.tip other ho hroot)

theorem ScriptsClosed.move (hclose : tree.ScriptsClosed) (hmove : Move params env tree next) :
    next.ScriptsClosed := by
  cases hmove with
  | disconnect pprev hprev =>
    exact hclose.of_same rfl (mem_of_pprev hprev) fun _ => Iff.rfl
  | connect pindex next hin hprev huse hconns hprune =>
    rw [pruneCandidates_eq hprune]
    have hmarked := hclose.markScriptsValid hprev
    refine ⟨hmarked.known, fun other ho hroot => ?_⟩
    have hlevel : blockValidScripts ≤ ((tree.markScriptsValid pindex).entry pindex).nValidity := by
      have hvalid := (huse pindex (ancestors_self _)).1
      rw [entry_markScriptsValid, if_pos rfl, hvalid]
      exact le_max_right _ _
    exact hmarked.known pindex hin hlevel other ho hroot
  | invalid pindex hin hprev huse hconns =>
    refine hclose.of_same (invalidBlockFound_keeps mapBlockIndex) ?_ ?_
    · rw [invalidBlockFound_keeps BlockTree.tip]
      exact ancestors_self _
    · intro other
      rw [entry_invalid]
      split <;> rfl
  | systemError pindex hin hprev huse hconns => exact hclose.markScriptsValid hprev
  | discard pindexNew pindexTest hcand hmem hunusable =>
    refine hclose.of_same (removeChain_keeps mapBlockIndex) ?_ ?_
    · rw [removeChain_keeps BlockTree.tip]
      exact ancestors_self _
    · intro other
      cases (tree.entry pindexTest).failed with
      | false => rw [entry_removeChain_missing]
      | true =>
        rw [entry_removeChain_failed]
        split <;> rfl

theorem ScriptsClosed.moves (hclose : tree.ScriptsClosed) (hmoves : Moves params env tree next) :
    next.ScriptsClosed := by
  induction hmoves with
  | refl => exact hclose
  | tail _ hmove ih => exact ih.move hmove

theorem ScriptsClosed.invalidateBlock (hclose : tree.ScriptsClosed) (params : TreeParams)
    (env : ActivateEnv) (pindex : CBlockIndex) :
    (tree.invalidateBlock params env pindex).2.ScriptsClosed := by
  obtain ⟨low, hlow, hmoves, hstopped | ⟨hout, hinval⟩⟩ :=
    invalidateBlock_spec params env tree pindex
  · rw [hstopped]
    exact hclose.moves hmoves
  · refine hclose.of_same hinval.mapBlockIndex (hinval.tip ▸ hlow) fun other => ?_
    rw [hinval.entry]
    split_ifs <;> rfl

/-! ### Blocks on an invalid chain -/

/-- `AcceptBlockHeader` refuses headers on the block: it is marked failed, or not connected and on
a block of `g_failed_blocks`. -/
def Barred (tree : BlockTree) (pindex : CBlockIndex) : Prop :=
  (tree.entry pindex).failed = true ∨
    (tree.entry pindex).nValidity < blockValidScripts ∧
      ∃ failed ∈ tree.gFailedBlocks, failed ∈ pindex.ancestors

/-- Every known block with an invalid ancestor is barred. -/
def AllBarred (tree : BlockTree) : Prop :=
  ∀ pindex ∈ tree.mapBlockIndex, ∀ bad ∈ pindex.ancestors,
    (tree.entry bad).failedValid = true → tree.Barred pindex

/-- A block headers are accepted on is not barred. -/
theorem not_barred (hvalid : (tree.entry pindex).failed = false)
    (hscrs : (tree.entry pindex).isValid blockValidScripts = true ∨
      ∀ failed ∈ tree.gFailedBlocks, failed ∉ pindex.ancestors) : ¬ tree.Barred pindex := by
  rintro (hmarked | ⟨hlow, failed, hmem, hbelow⟩)
  · rw [hvalid] at hmarked
    cases hmarked
  · rcases hscrs with hconnd | hno
    · rw [BlockEntry.isValid, Bool.and_eq_true, decide_eq_true_eq] at hconnd
      exact absurd hconnd.2 (not_le.2 hlow)
    · exact absurd hbelow (hno failed hmem)

/-- A block stays barred while marks and `g_failed_blocks` grow and it does not become
script-valid. -/
theorem Barred.mono (hbarred : tree.Barred pindex)
    (hmark : (tree.entry pindex).failed = true → (next.entry pindex).failed = true)
    (hlevel : (tree.entry pindex).nValidity < blockValidScripts →
      (next.entry pindex).nValidity < blockValidScripts)
    (hfail : ∀ failed ∈ tree.gFailedBlocks, failed ∈ next.gFailedBlocks) :
    next.Barred pindex := by
  rcases hbarred with hmarked | ⟨hlow, failed, hmem, hbelow⟩
  · exact .inl (hmark hmarked)
  · exact .inr ⟨hlevel hlow, failed, hfail failed hmem, hbelow⟩

theorem failed_markChild : ({ entry with failedChild := true } : BlockEntry).failed = true := by
  rw [BlockEntry.failed, Bool.or_true]

theorem failed_markValid : ({ entry with failedValid := true } : BlockEntry).failed = true := by
  rw [BlockEntry.failed, Bool.true_or]

section

variable (hbarred : tree.AllBarred)

include hbarred

/-- Marking children of a failed block bars no fewer blocks. -/
theorem AllBarred.of_marks (marked : List CBlockIndex)
    (hent : ∀ other, next.entry other =
      if other ∈ marked then { tree.entry other with failedChild := true } else tree.entry other)
    (hmap : next.mapBlockIndex = tree.mapBlockIndex)
    (hfail : next.gFailedBlocks = tree.gFailedBlocks) : next.AllBarred := by
  intro pindex hin bad hbad hinvalid
  have heq : (next.entry bad).failedValid = (tree.entry bad).failedValid := by
    rw [hent]
    split <;> rfl
  rw [hmap] at hin
  rw [heq] at hinvalid
  refine (hbarred pindex hin bad hbad hinvalid).mono ?_ ?_ fun failed hmem => hfail ▸ hmem
  · intro hmarked
    rw [hent]
    split
    · exact failed_markChild
    · exact hmarked
  · intro hlow
    rw [hent]
    split <;> exact hlow

theorem AllBarred.headerStep (hgrown : tree.Grown params)
    (hstep : HeaderStep params tree block result next) : next.AllBarred := by
  cases hstep with
  | refused | known => exact hbarred
  | added pprev hnew hprev hvalid hscrs =>
    intro pindex hin bad hbad hinvalid
    have hprevKnown := (mem_of_find hprev).1
    rcases List.mem_cons.1 hin with rfl | hold
    · -- the header was accepted, so the block before it is not barred
      rcases List.mem_cons.1 hbad with rfl | hbelow
      · rw [entry_grow_new] at hinvalid
        cases hinvalid
      · rw [entry_grow_of_mem hnew (hgrown.ancestors hprevKnown hbelow)] at hinvalid
        exact absurd (hbarred pprev hprevKnown bad hbelow hinvalid) (not_barred hvalid hscrs)
    · have heq : (tree.grow params pprev block).entry pindex = tree.entry pindex :=
        entry_grow_of_mem hnew hold
      rw [entry_grow_of_mem hnew (hgrown.ancestors hold hbad)] at hinvalid
      refine (hbarred pindex hold bad hbad hinvalid).mono ?_ ?_ fun _ hmem => hmem
      · rw [heq]
        exact id
      · rw [heq]
        exact id
  | walked pprev failedit hprev hfail hmem hvalid =>
    exact hbarred.of_marks _ (entry_invalidWalk tree pprev failedit)
      (invalidWalk_keeps mapBlockIndex) (invalidWalk_keeps gFailedBlocks)

/-- Marking a block invalid needs its known descendants barred. -/
theorem AllBarred.of_invalid (hent : ∀ other, next.entry other =
      if other = pindex then { tree.entry other with failedValid := true } else tree.entry other)
    (hmap : next.mapBlockIndex = tree.mapBlockIndex)
    (hfail : ∀ failed ∈ tree.gFailedBlocks, failed ∈ next.gFailedBlocks)
    (habove : ∀ other ∈ tree.mapBlockIndex, pindex ∈ other.ancestors → other ≠ pindex →
      next.Barred other) : next.AllBarred := by
  intro other hin bad hbad hinvalid
  rw [hmap] at hin
  by_cases hself : other = pindex
  · refine .inl ?_
    rw [hent, if_pos hself]
    exact failed_markValid
  · by_cases heq : bad = pindex
    · exact habove other hin (heq ▸ hbad) hself
    · rw [hent, if_neg heq] at hinvalid
      refine (hbarred other hin bad hbad hinvalid).mono ?_ ?_ hfail
      · rw [hent, if_neg hself]
        exact id
      · rw [hent, if_neg hself]
        exact id

/-- Storing a block bars the same blocks. -/
theorem AllBarred.receivedBlockTransactions (params : TreeParams) (pindex : CBlockIndex) (nTx : ℕ) :
    (tree.receivedBlockTransactions params pindex nTx).AllBarred := by
  have hlink := (queued_received params tree pindex nTx).linked
  have heq : ∀ other,
      ((tree.receivedBlockTransactions params pindex nTx).entry other).failedValid =
        (tree.entry other).failedValid ∧
      ((tree.receivedBlockTransactions params pindex nTx).entry other).failed =
        (tree.entry other).failed ∧
      (((tree.receivedBlockTransactions params pindex nTx).entry other).nValidity <
          blockValidScripts ↔ (tree.entry other).nValidity < blockValidScripts) := by
    intro other
    rw [hlink.entry, entry_stored]
    split
    · refine ⟨rfl, rfl, ?_⟩
      split
      · rfl
      · rw [max_lt_iff, and_iff_left (by decide)]
    · exact ⟨rfl, rfl, Iff.rfl⟩
  intro other hin bad hbad hinvalid
  rw [hlink.mapBlockIndex] at hin
  rw [(heq bad).1] at hinvalid
  refine (hbarred other hin bad hbad hinvalid).mono ?_ (heq other).2.2.2 fun failed hmem => ?_
  · rw [(heq other).2.1]
    exact id
  · rw [hlink.gFailedBlocks]
    exact hmem

/-- Making a block on no invalid one script-valid. -/
theorem AllBarred.markScriptsValid (huse : tree.Usable pindex) :
    (tree.markScriptsValid pindex).AllBarred := by
  have heq : ∀ other, ((tree.markScriptsValid pindex).entry other).failedValid =
      (tree.entry other).failedValid := by
    intro other
    rw [entry_markScriptsValid]
    split <;> rfl
  intro other hin bad hbad hinvalid
  rw [heq] at hinvalid
  by_cases hself : other = pindex
  · have hvalid := (huse bad (hself ▸ hbad)).1
    rw [failed_of_failedValid hinvalid] at hvalid
    cases hvalid
  · have ho := entry_markScriptsValid tree pindex other
    rw [if_neg hself] at ho
    refine (hbarred other hin bad hbad hinvalid).mono ?_ ?_ fun _ hmem => hmem
    · rw [ho]
      exact id
    · rw [ho]
      exact id

end

/-- No block once connected is found invalid now. -/
def Reconnects (tree : BlockTree) (env : ActivateEnv) : Prop :=
  ∀ pindex ∈ tree.mapBlockIndex, blockValidScripts ≤ (tree.entry pindex).nValidity →
    env.connects pindex ≠ .invalid

theorem Reconnects.move (hrecon : tree.Reconnects env) (hmove : Move params env tree next) :
    next.Reconnects env := by
  have hmarked : ∀ pindex, env.connects pindex ≠ .invalid →
      (tree.markScriptsValid pindex).Reconnects env := by
    intro pindex hconns other hin hlevel
    by_cases hself : other = pindex
    · exact hself ▸ hconns
    · rw [entry_markScriptsValid, if_neg hself] at hlevel
      exact hrecon other hin hlevel
  have hmap := hmove.mapBlockIndex
  cases hmove with
  | disconnect pprev hprev => exact hrecon
  | connect pindex next hin hprev huse hconns hprune =>
    rw [pruneCandidates_eq hprune]
    exact hmarked pindex (by rw [hconns]; nofun)
  | invalid pindex hin hprev huse hconns =>
    intro other ho hlevel
    rw [hmap] at ho
    refine hrecon other ho ?_
    rw [entry_invalid] at hlevel
    split at hlevel <;> exact hlevel
  | systemError pindex hin hprev huse hconns =>
    exact hmarked pindex (by rw [hconns]; nofun)
  | discard pindexNew pindexTest hcand hmem hunusable =>
    intro other ho hlevel
    rw [hmap] at ho
    refine hrecon other ho ?_
    cases hfail : (tree.entry pindexTest).failed with
    | false => rwa [hfail, entry_removeChain_missing] at hlevel
    | true =>
      rw [hfail, entry_removeChain_failed] at hlevel
      split at hlevel <;> exact hlevel

theorem AllBarred.move (hbarred : tree.AllBarred) (hclose : tree.ScriptsClosed)
    (hrecon : tree.Reconnects env) (hmove : Move params env tree next) : next.AllBarred := by
  cases hmove with
  | disconnect pprev hprev => exact hbarred
  | connect pindex next hin hprev huse hconns hprune =>
    rw [pruneCandidates_eq hprune]
    exact hbarred.markScriptsValid huse
  | invalid pindex hin hprev huse hconns =>
    refine hbarred.of_invalid (entry_invalid params tree pindex)
      (invalidBlockFound_keeps mapBlockIndex) ?_ ?_
    · exact fun failed hmem =>
        (mem_gFailedBlocks_invalid params tree pindex failed).2 (.inr hmem)
    · intro other ho habove hne
      refine .inr ⟨?_, pindex,
        (mem_gFailedBlocks_invalid params tree pindex pindex).2 (.inl rfl), habove⟩
      rw [entry_invalid, if_neg hne]
      -- a connected descendant would mean that the block itself was connected before
      by_contra hlevel
      have hroot : pindex.pprev ≠ none := by rw [hprev]; nofun
      exact hrecon pindex hin (hclose.known other ho (not_lt.1 hlevel) pindex habove hroot) hconns
  | systemError pindex hin hprev huse hconns => exact hbarred.markScriptsValid huse
  | discard pindexNew pindexTest hcand hmem hunusable =>
    cases (tree.entry pindexTest).failed with
    | true =>
      exact hbarred.of_marks _ (entry_removeChain_failed tree pindexNew pindexTest)
        (removeChain_keeps mapBlockIndex) (removeChain_keeps gFailedBlocks)
    | false =>
      refine hbarred.of_marks [] (fun other => ?_)
        (removeChain_keeps mapBlockIndex) (removeChain_keeps gFailedBlocks)
      rw [entry_removeChain_missing]
      rfl

/-- What is kept while the calls bar what they have to. -/
structure Guarded (params : TreeParams) (tree : BlockTree) : Prop where
  grown : tree.Grown params
  sound : tree.FailedSound
  closed : tree.ScriptsClosed
  barred : tree.AllBarred

theorem Guarded.moves (hguarded : tree.Guarded params) (hrecon : tree.Reconnects env)
    (hmoves : Moves params env tree next) : next.Guarded params := by
  suffices hboth : next.Guarded params ∧ next.Reconnects env from hboth.1
  induction hmoves with
  | refl => exact ⟨hguarded, hrecon⟩
  | tail _ hmove ih =>
    obtain ⟨hguarded, hrecon⟩ := ih
    exact ⟨⟨hguarded.grown.move hmove, hguarded.sound.move hmove, hguarded.closed.move hmove,
      hguarded.barred.move hguarded.closed hrecon hmove⟩, hrecon.move hmove⟩

/-- A call leaves no unmarked way to a block it finds invalid. A refused body has only barred
descendants, no block once connected is found invalid, and a block is invalidated only if its
connected descendants are marked or active. -/
def Bars (tree : BlockTree) : TreeCall → Prop
  | .acceptBlockHeader _ _ => True
  | .acceptBlock arrival => ∀ reject pindex, arrival.blockChecks = .error reject →
      reject.corruptionPossible = false → tree.find arrival.header.hash = some pindex →
      (tree.entry pindex).haveData = false →
      ∀ other ∈ tree.mapBlockIndex, pindex ∈ other.ancestors → other ≠ pindex → tree.Barred other
  | .activateBestChain env _ => tree.Reconnects env
  | .invalidateBlock _ hash => ∀ pindex, tree.find hash = some pindex →
      ∀ other ∈ tree.mapBlockIndex, pindex ∈ other.ancestors → other ≠ pindex →
        other ∉ tree.tip.ancestors → blockValidScripts ≤ (tree.entry other).nValidity →
        (tree.entry other).failed = true
  | .resetBlockFailureFlags _ => False

theorem Guarded.acceptBlock {mid : BlockTree} (hguarded : tree.Guarded params)
    (hbars : tree.Bars (.acceptBlock arrival))
    (hhead : HeaderStep params tree arrival.header (some pindex) mid)
    (hbody : BodyStep params arrival mid pindex next) : next.Guarded params := by
  have hgrown := hguarded.grown.headerStep hhead
  have hmid := hguarded.barred.headerStep hguarded.grown hhead
  refine ⟨hgrown.bodyStep hhead.mem hbody,
    (hguarded.sound.headerStep hguarded.grown hhead).bodyStep hbody,
    (hguarded.closed.headerStep hguarded.grown hhead).bodyStep hbody, ?_⟩
  cases hbody with
  | same => exact hmid
  | received hchecks hpos hdata => exact hmid.receivedBlockTransactions params pindex arrival.nTx
  | refused reject hchecks hintact hdata =>
    refine hmid.of_invalid (entry_markFailedValid mid pindex) rfl (fun _ hmem => hmem) ?_
    intro other ho habove hne
    suffices hbarred : mid.Barred other by
      refine hbarred.mono ?_ ?_ fun _ hmem => hmem
      · rw [entry_markFailedValid, if_neg hne]
        exact id
      · rw [entry_markFailedValid, if_neg hne]
        exact id
    cases hhead with
    | known _ hfind hvalid =>
      exact hbars reject pindex hchecks hintact hfind hdata other ho habove hne
    | added pprev hnew hprev hvalid hscrs =>
      -- nothing stands on a header that was just added
      have hold := (List.mem_cons.1 ho).resolve_left hne
      exact absurd (hguarded.grown.ancestors hold habove) (not_mem_of_find_none hnew)

theorem Guarded.invalidateBlock {hash : Uint256} (hguarded : tree.Guarded params)
    (hbars : tree.Bars (.invalidateBlock env hash)) (hfind : tree.find hash = some pindex) :
    (tree.invalidateBlock params env pindex).2.Guarded params := by
  refine ⟨hguarded.grown.invalidateBlock env (mem_of_find hfind).1,
    hguarded.sound.invalidateBlock params env pindex,
    hguarded.closed.invalidateBlock params env pindex, ?_⟩
  obtain ⟨low, hlow, hmoves, hstopped | ⟨hout, hinval⟩⟩ :=
    invalidateBlock_spec params env tree pindex
  · rw [hstopped]
    exact hguarded.barred
  · intro other hin bad hbad hinvalid
    rw [hinval.mapBlockIndex] at hin
    have hmark : (tree.entry other).failed = true →
        ((tree.invalidateBlock params env pindex).2.entry other).failed = true := by
      intro hmarked
      rw [hinval.entry]
      simp only
      split_ifs
      · exact failed_markValid
      · exact failed_markValid
      · exact failed_markChild
      · exact hmarked
    have hlevel : ((tree.invalidateBlock params env pindex).2.entry other).nValidity =
        (tree.entry other).nValidity := by
      rw [hinval.entry]
      split_ifs <;> rfl
    by_cases hself : other = pindex
    · refine .inl ?_
      rw [hinval.entry]
      rw [if_pos hself]
      exact failed_markValid
    by_cases heq : bad = pindex
    · subst heq
      by_cases hchain : other ∈ tree.tip.ancestors
      · -- the blocks on the active chain are marked as they are disconnected
        have hcont := contains_iff.2 (ancestors_trans hbad hchain)
        have hmarked : other ∈ tree.invalidatedAbove bad := by
          rw [invalidatedAbove, if_pos hcont, mem_above_iff (contains_iff.1 hcont)]
          exact ⟨hchain, hbad, hself⟩
        refine .inl ?_
        rw [hinval.entry]
        rw [if_neg hself, if_pos hmarked]
        exact failed_markChild
      · by_cases hconnd : blockValidScripts ≤ (tree.entry other).nValidity
        · exact .inl (hmark (hbars bad hfind other hin hbad hself hchain hconnd))
        · refine .inr ⟨?_, bad, (hinval.gFailedBlocks bad).2 (.inl rfl), hbad⟩
          rw [hlevel]
          exact not_le.1 hconnd
    · have hold : (tree.entry bad).failedValid = true := by
        rw [hinval.entry] at hinvalid
        split at hinvalid <;> exact hinvalid
      refine (hguarded.barred other hin bad hbad hold).mono hmark ?_ ?_
      · rw [hlevel]
        exact id
      · exact fun failed hmem => (hinval.gFailedBlocks failed).2 (.inr hmem)

theorem Guarded.call {call : TreeCall} (hguarded : tree.Guarded params) (hbars : tree.Bars call)
    (hcall : tree.call params call = .ok next) : next.Guarded params := by
  have hhead : ∀ {block result mid}, HeaderStep params tree block result mid →
      mid.Guarded params := fun hstep =>
    ⟨hguarded.grown.headerStep hstep, hguarded.sound.headerStep hguarded.grown hstep,
      hguarded.closed.headerStep hguarded.grown hstep,
      hguarded.barred.headerStep hguarded.grown hstep⟩
  cases call_step hguarded.grown hcall with
  | header block checks result next hstep => exact hhead hstep
  | refused arrival next hstep => exact hhead hstep
  | block arrival pindex mid next hstep hbody => exact hguarded.acceptBlock hbars hstep hbody
  | activate env rounds next hmoves => exact hguarded.moves hbars hmoves
  | invalidate env hash pindex hfind => exact hguarded.invalidateBlock hbars hfind
  | invalidateUnknown => exact hguarded
  | reset | resetUnknown => exact hbars.elim

theorem guarded_initial (params : TreeParams) (nTime : UInt32) (nTx : ℕ) :
    (initial params nTime nTx).Guarded params := by
  have hgen : ∀ pindex ∈ (initial params nTime nTx).mapBlockIndex, ∀ other ∈ pindex.ancestors,
      other = .genesis params.hashGenesisBlock nTime := by
    intro pindex hin other ho
    rw [List.mem_singleton.1 hin] at ho
    exact List.mem_singleton.1 ho
  refine ⟨grown_initial params nTime nTx, nofun, ⟨?_, ?_⟩, ?_⟩
  · intro pindex hin hlevel other ho hroot
    rw [hgen pindex hin other ho] at hroot
    exact absurd rfl hroot
  · intro other ho hroot
    rw [List.mem_singleton.1 ho] at hroot
    exact absurd rfl hroot
  · intro pindex hin bad hbad hinvalid
    rw [hgen pindex hin bad hbad, initial] at hinvalid
    simp at hinvalid

/-- `AcceptBlockHeader` returns false for every new header with an invalid ancestor. -/
def RefusesInvalid (params : TreeParams) (tree : BlockTree) : Prop :=
  ∀ block checks pprev, tree.find block.hash = none →
    tree.find block.hashPrevBlock = some pprev →
    (∃ bad ∈ pprev.ancestors, (tree.entry bad).failedValid = true) →
    ∃ reject next, tree.acceptBlockHeader params block checks = .ok (.error reject, next)

theorem Guarded.refusesInvalid (hguarded : tree.Guarded params) : tree.RefusesInvalid params := by
  rintro block checks pprev hnew hprev ⟨bad, hbad, hinvalid⟩
  obtain ⟨⟨result, next⟩, haccept⟩ := hguarded.sound.acceptBlockHeader params block checks
  have hstep := acceptBlockHeader_step hguarded.grown haccept
  cases result with
  | error reject => exact ⟨reject, next, haccept⟩
  | ok pindex =>
    cases hstep with
    | known _ hfind hvalid =>
      rw [hnew] at hfind
      cases hfind
    | added other _ ho hvalid hscrs =>
      obtain rfl : pprev = other := Option.some.inj (hprev.symm.trans ho)
      exact absurd (hguarded.barred pprev (mem_of_find hprev).1 bad hbad hinvalid)
        (not_barred hvalid hscrs)

/-- Along every run whose calls bar what they have to, no header is accepted on an
invalid chain. -/
theorem headers_refused_on_invalid_chain (params : TreeParams) (nTime : UInt32) (nTx : ℕ)
    (calls : List TreeCall)
    (hbars : Runs.Throughout (call params) Bars calls (initial params nTime nTx)) :
    Runs.Always (call params) (RefusesInvalid params) calls (initial params nTime nTx) := by
  have hguarded : Runs.Always (call params) (Guarded params) calls
      (initial params nTime nTx) :=
    hbars.always (fun _ _ _ hguarded hfit hcall => hguarded.call hfit hcall)
      (guarded_initial params nTime nTx)
  exact hguarded.imp fun _ => Guarded.refusesInvalid

end BlockTree

namespace InvalidHeadersWitness

open BlockTree FailedBlocksWitness

def validBody (hashPrevBlock hash : UInt8) : BlockArrival where
  header := header hashPrevBlock hash
  headerChecks := checks
  nTx := 1
  blockChecks := .ok ()
  nTx_pos _ := Nat.one_pos
  fRequested := true
  saved := true

/-- A block is connected, gets a header on top, and is invalidated. -/
def beforeInvalidate : List TreeCall :=
  [.acceptBlock (validBody 0 1), .activateBestChain env 5, .acceptBlockHeader (header 1 2) checks]

theorem throughout_beforeInvalidate :
    Runs.Throughout (call params) Bars
      (beforeInvalidate ++ [.invalidateBlock env (hashOf 1)]) (initial params 0 1) := by
  have hends : Runs.endsIn (call params) (fun tree => tree.mapBlockIndex.all fun other =>
      decide (other ∈ tree.tip.ancestors) ||
        decide ((tree.entry other).nValidity < blockValidScripts))
      beforeInvalidate (initial params 0 1) = true := by decide +kernel
  obtain ⟨tree, hrun, htest⟩ := Runs.exists_of_endsIn hends
  refine ⟨nofun, fun first hfst => ⟨?_, fun second hsnd => ⟨trivial, fun third hthird =>
    ⟨?_, fun _ _ => trivial⟩⟩⟩⟩
  · exact fun _ _ _ => nofun
  · have hlast : Runs.run (call params) beforeInvalidate (initial params 0 1) = .ok third := by
      simp only [beforeInvalidate, Runs.run, hfst, hsnd, hthird]
    obtain rfl := Except.ok.inj (hlast.symm.trans hrun)
    intro pindex hfind other ho habove hne hout hlevel
    have hfree := List.all_eq_true.1 htest other ho
    rw [Bool.or_eq_true, decide_eq_true_eq, decide_eq_true_eq] at hfree
    exact absurd hfree (not_or.2 ⟨hout, not_lt.2 hlevel⟩)

theorem headers_refused_after_invalidate :
    ∃ tree, Runs.run (call params)
        (beforeInvalidate ++ [.invalidateBlock env (hashOf 1)]) (initial params 0 1) = .ok tree ∧
      (∃ bad ∈ tree.mapBlockIndex, (tree.entry bad).failedValid = true) ∧
      tree.RefusesInvalid params := by
  have hends : Runs.endsIn (call params) (fun tree =>
      tree.mapBlockIndex.any fun bad => (tree.entry bad).failedValid)
      (beforeInvalidate ++ [.invalidateBlock env (hashOf 1)]) (initial params 0 1) = true := by
    decide +kernel
  obtain ⟨tree, hrun, htest⟩ := Runs.exists_of_endsIn hends
  exact ⟨tree, hrun, List.any_eq_true.1 htest,
    (headers_refused_on_invalid_chain params 0 1 _ throughout_beforeInvalidate).last hrun⟩

/-- The body is invalid although the header is fine. -/
def invalidBody (hashPrevBlock hash : UInt8) : BlockArrival where
  header := header hashPrevBlock hash
  headerChecks := checks
  nTx := 1
  blockChecks := .error (dos 100 "bad-cb-missing")
  nTx_pos _ := Nat.one_pos
  fRequested := true
  saved := true

/-- Two headers, and the body of the lower block is invalid. -/
def invalidLower : List TreeCall :=
  [.acceptBlockHeader (header 0 1) checks, .acceptBlockHeader (header 1 2) checks,
    .acceptBlock (invalidBody 0 1)]

/-- The third header is new, has an invalid ancestor and is accepted. -/
def acceptsAboveInvalid (tree : BlockTree) : Bool :=
  (tree.find (header 2 3).hash).isNone &&
  (match tree.find (header 2 3).hashPrevBlock with
    | none => false
    | some pprev => pprev.ancestors.any fun bad => (tree.entry bad).failedValid) &&
  match tree.acceptBlockHeader params (header 2 3) checks with
  | .ok (.ok _, _) => true
  | _ => false

/-- The next header has an invalid block among its ancestors and is accepted. -/
theorem accepts_header_above_invalid_body :
    ∃ tree, Runs.run (call params) invalidLower (initial params 0 1) = .ok tree ∧
      ∃ pprev, tree.find (header 2 3).hash = none ∧
        tree.find (header 2 3).hashPrevBlock = some pprev ∧
        (∃ bad ∈ pprev.ancestors, (tree.entry bad).failedValid = true) ∧
        ∃ pindex next,
          tree.acceptBlockHeader params (header 2 3) checks = .ok (.ok pindex, next) := by
  have hends : Runs.endsIn (call params) acceptsAboveInvalid invalidLower (initial params 0 1) =
      true := by decide +kernel
  obtain ⟨tree, hrun, htest⟩ := Runs.exists_of_endsIn hends
  rw [acceptsAboveInvalid, Bool.and_eq_true, Bool.and_eq_true] at htest
  obtain ⟨⟨hnew, hbad⟩, haccept⟩ := htest
  split at hbad
  · cases hbad
  · next pprev hprev =>
    obtain ⟨bad, hmem, hmark⟩ := List.any_eq_true.1 hbad
    refine ⟨tree, hrun, pprev, Option.isNone_iff_eq_none.1 hnew, hprev, ⟨bad, hmem, hmark⟩, ?_⟩
    split at haccept
    · next pindex next hok => exact ⟨pindex, next, hok⟩
    · cases haccept

end InvalidHeadersWitness

end Catoshi
