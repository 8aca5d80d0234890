/-
What is kept while the block index is built: skip pointers, links, work and the fields on disk.
-/
import Catoshi.LoadBlockIndex
import Catoshi.ReconsiderBlock

namespace Catoshi

open CBlockIndex BlockTree Function Nat Option

/-! ### Skip pointers -/

section walk

variable {P : Type} {pprev pskip : P → Option P} {rep : CBlockIndex → P} {pindex : CBlockIndex}

/-- The loop finds the ancestor if all pointers on the way are right. -/
theorem walkDown_spec {height fuel : ℕ} (hheight : height ≤ pindex.nHeight)
    (hfuel : pindex.nHeight ≤ fuel)
    (hprev : ∀ other ∈ pindex.ancestors, pprev (rep other) = other.pprev.map rep)
    (hskip : ∀ other ∈ pindex.ancestors, pskip (rep other) = other.pskip.map rep) :
    walkDown pprev pskip height fuel pindex.nHeight (rep pindex) =
      (pindex.getAncestor height).map rep := by
  induction fuel generalizing pindex with
  | zero =>
    have hsame : pindex.nHeight = height := by omega
    rw [walkDown, ← hsame, getAncestor_self, map_some]
  | succ fuel ih =>
    rw [walkDown]
    split_ifs with hreach
    · have hsame : pindex.nHeight = height := by omega
      rw [← hsame, getAncestor_self, map_some]
    · have hdown : ∀ low ∈ pindex.ancestors, height ≤ low.nHeight → low.nHeight ≤ fuel →
          walkDown pprev pskip height fuel low.nHeight (rep low) =
            (pindex.getAncestor height).map rep := by
        intro low hlow hbound hshort
        rw [ih hbound hshort (fun other ho => hprev other ?_)
          fun other ho => hskip other ?_, ← getAncestor_of_mem hlow hbound]
        · exact ancestors_trans ho hlow
        · exact ancestors_trans ho hlow
      cases pindex with
      | genesis hash time => exact absurd (zero_le height) hreach
      | child below hash time =>
        have hself := ancestors_self (.child below hash time)
        have hbelow : below ∈ (CBlockIndex.child below hash time).ancestors :=
          List.mem_cons_of_mem _ (ancestors_self below)
        rw [CBlockIndex.nHeight] at hreach hfuel ⊢
        have hnext : walkDown pprev pskip height fuel below.nHeight (rep below) =
            ((CBlockIndex.child below hash time).getAncestor height).map rep :=
          hdown below hbelow (by omega) (by omega)
        have hlower : getSkipHeight (below.nHeight + 1) ≤ below.nHeight :=
          Nat.lt_succ_iff.1 (getSkipHeight_lt (succ_pos _))
        obtain ⟨skip, hf, hmem, hskipHeight, -⟩ := exists_getAncestor hlower
        have hpointer : pskip (rep (.child below hash time)) = some (rep skip) := by
          rw [hskip _ hself, CBlockIndex.pskip, hf, map_some]
        have hstep : pprev (rep (.child below hash time)) = some (rep below) := hprev _ hself
        simp only [hpointer, hstep]
        split
        · next reached hfollow =>
          -- the skip pointer is followed, and it does not lead below the height
          split_ifs at hfollow with hwhy
          cases hfollow
          have hbound : height ≤ skip.nHeight := by
            rw [Bool.or_eq_true, Bool.and_eq_true, decide_eq_true_eq, decide_eq_true_eq] at hwhy
            omega
          rw [← hskipHeight]
          refine hdown skip ?_ hbound (by omega)
          exact ancestors_trans hmem hbelow
        · exact hnext

theorem getAncestorBySkip_spec {height : ℕ}
    (hprev : ∀ other ∈ pindex.ancestors, pprev (rep other) = other.pprev.map rep)
    (hskip : ∀ other ∈ pindex.ancestors, pskip (rep other) = other.pskip.map rep) :
    getAncestorBySkip pprev pskip pindex.nHeight (rep pindex) height =
      (pindex.getAncestor height).map rep := by
  rw [getAncestorBySkip]
  split_ifs with hhigh
  · rw [getAncestor_of_lt hhigh, map_none]
  · exact walkDown_spec (not_lt.1 hhigh) le_rfl hprev hskip

end walk

/-! ### Links -/

namespace BlockTree

variable {params : TreeParams} {tree next : BlockTree} {pindex : CBlockIndex} {nTx : ℕ}

theorem Linking.receivedBlockTransactions (hlinking : tree.Linking [])
    (hin : pindex ∈ tree.mapBlockIndex) (hnTx : (tree.entry pindex).nTx = 0) (hpos : 0 < nTx)
    (hcount : tree.Countable pindex nTx)
    (hvalid : ∀ pprev, pindex.pprev = some pprev → (tree.entry pprev).nChainTx = 0 →
      (tree.entry pprev).isValid blockValidTree = true) :
    (tree.receivedBlockTransactions params pindex nTx).Linking [] := by
  have hzero := hlinking.not_linked hin hnTx
  rcases received_cases params tree pindex nTx with
    ⟨hpar, heq⟩ | ⟨pprev, hprev, hpar, hcases⟩
  · rw [heq]
    exact linkBlocks_induction (fun queue tree => tree.Linking queue)
      (fun _ _ _ hlinking => hlinking.round) (add_comm _ _).le
      (hlinking.queue_stored hin hnTx hpos hcount hpar)
  · have hlow : (tree.entry pprev).nChainTx = 0 := by rwa [nChainTx_stored hzero] at hpar
    have hgood := hvalid pprev hprev hlow
    rcases hcases with ⟨-, heq⟩ | ⟨hbad, -⟩
    · rw [heq]
      exact hlinking.wait_stored hin hnTx hpos hcount hprev hpar
    · rw [entry_stored_of_ne (ne_of_pprev hprev), hgood] at hbad
      cases hbad

theorem reflagged_invalidateBlock (params : TreeParams) (env : ActivateEnv) (tree : BlockTree)
    (pindex : CBlockIndex) : Reflagged tree (tree.invalidateBlock params env pindex).2 := by
  obtain ⟨low, -, -, hstopped | ⟨-, hinval⟩⟩ := invalidateBlock_spec params env tree pindex
  · rw [hstopped]
    exact ⟨rfl, rfl, fun _ => rfl⟩
  · have hflag := hinval.flagged
    exact ⟨hflag.mapBlockIndex, hflag.mapBlocksUnlinked, hflag.entry⟩

theorem reflagged_resetBlockFailureFlags (params : TreeParams) (tree : BlockTree)
    (pindex : CBlockIndex) : Reflagged tree (tree.resetBlockFailureFlags params pindex) where
  mapBlockIndex := resetFlags_keeps mapBlockIndex
  mapBlocksUnlinked := resetFlags_keeps mapBlocksUnlinked
  entry := fun other => by
    rw [entry_resetFlags]
    split <;> rfl

end BlockTree

/-! ### The fields of an entry -/

/-- What `ReceivedBlockTransactions` is called with. -/
structure Storable (nTx : ℕ) (pos : CDiskBlockPos) : Prop where
  notEmpty : 0 < nTx
  nTx : nTx ≤ uintMax
  nFile : pos.nFile ≤ intMax
  nPos : pos.nPos ≤ uintMax

instance (nTx : ℕ) (pos : CDiskBlockPos) : Decidable (Storable nTx pos) :=
  decidable_of_iff (0 < nTx ∧ nTx ≤ uintMax ∧ pos.nFile ≤ intMax ∧ pos.nPos ≤ uintMax)
    ⟨fun hfits => ⟨hfits.1, hfits.2.1, hfits.2.2.1, hfits.2.2.2⟩,
      fun hfits => ⟨hfits.notEmpty, hfits.nTx, hfits.nFile, hfits.nPos⟩⟩

namespace IndexState

/-- The fields fixed by the header and the block before. -/
structure Placed (params : IndexParams) (index : IndexState) (pindex : CBlockIndex) : Prop where
  hash : params.getHash (index.getBlockHeader pindex) = pindex.getBlockHash
  proof : checkProofOfWork params.powLimit pindex.getBlockHash (index.fields pindex).nBits = true
  nHeight : pindex.nHeight ≤ intMax
  nChainWork : (index.tree.entry pindex).nChainWork =
    (pindex.pprev.elim 0 fun pprev => (index.tree.entry pprev).nChainWork) +
      getBlockProof (index.fields pindex).nBits
  nTimeMax : (index.fields pindex).nTimeMax =
    pindex.pprev.elim pindex.nTime fun pprev => max (index.fields pprev).nTimeMax pindex.nTime
  pskip : (index.fields pindex).pskip = pindex.pskip

/-- The fields that depend on the data of the block. -/
structure Filed (entry : BlockEntry) (fields : IndexFields) : Prop where
  tree : blockValidTree ≤ entry.nValidity
  mask : entry.nValidity ≤ blockValidMask
  noData : entry.haveData = false → entry.nTx = 0 ∧ fields.nFile = 0 ∧ fields.nDataPos = 0
  nTx : entry.nTx ≤ uintMax
  nFile : fields.nFile ≤ intMax
  nDataPos : fields.nDataPos ≤ uintMax
  nUndoPos : fields.nUndoPos = 0

structure Kept (params : IndexParams) (index : IndexState) : Prop where
  grown : index.tree.Grown params.toTreeParams
  linking : index.tree.Linking []
  placed : ∀ pindex ∈ index.tree.mapBlockIndex, index.Placed params pindex
  filed : ∀ pindex ∈ index.tree.mapBlockIndex, Filed (index.tree.entry pindex) (index.fields pindex)

section steps

variable {params : IndexParams} {index next : IndexState} {pindex : CBlockIndex}

theorem Placed.of_same (hplaced : index.Placed params pindex)
    (hhead : next.getBlockHeader pindex = index.getBlockHeader pindex)
    (hskip : (next.fields pindex).pskip = (index.fields pindex).pskip)
    (hsame : ∀ other ∈ pindex.ancestors,
      (next.tree.entry other).nChainWork = (index.tree.entry other).nChainWork ∧
        (next.fields other).nTimeMax = (index.fields other).nTimeMax) :
    next.Placed params pindex := by
  have hself := hsame pindex (ancestors_self pindex)
  have hbits : (next.fields pindex).nBits = (index.fields pindex).nBits :=
    congrArg HeaderFields.nBits hhead
  have hbelow : ∀ pprev, pindex.pprev = some pprev → _ := fun pprev hprev =>
    hsame pprev (mem_of_pprev hprev)
  refine ⟨?_, ?_, hplaced.nHeight, ?_, ?_, ?_⟩
  · rw [hhead]
    exact hplaced.hash
  · rw [hbits]
    exact hplaced.proof
  · rw [hself.1, hplaced.nChainWork, hbits]
    cases hprev : pindex.pprev with
    | none => rfl
    | some pprev => rw [elim_some, elim_some, (hbelow pprev hprev).1]
  · rw [hself.2, hplaced.nTimeMax]
    cases hprev : pindex.pprev with
    | none => rfl
    | some pprev => rw [elim_some, elim_some, (hbelow pprev hprev).2]
  · rw [hskip]
    exact hplaced.pskip

theorem Kept.reflagged (hkept : index.Kept params) {tree : BlockTree}
    (hgrown : tree.Grown params.toTreeParams) (hreflag : BlockTree.Reflagged index.tree tree) :
    ({ index with tree := tree } : IndexState).Kept params := by
  refine ⟨hgrown, hreflag.marked.linking hkept.linking, fun pindex hin => ?_, fun pindex hin => ?_⟩
  · rw [hreflag.mapBlockIndex] at hin
    exact (hkept.placed pindex hin).of_same rfl rfl fun other _ =>
      ⟨hreflag.marked.nChainWork other, rfl⟩
  · rw [hreflag.mapBlockIndex] at hin
    have hfiled := hkept.filed pindex hin
    rw [hreflag.entry]
    exact ⟨hfiled.tree, hfiled.mask, hfiled.noData, hfiled.nTx, hfiled.nFile, hfiled.nDataPos,
      hfiled.nUndoPos⟩

def extended (params : IndexParams) (index : IndexState) (block : HeaderFields)
    (pprev : CBlockIndex) (pindexBestHeader : Option CBlockIndex) : IndexState :=
  let pindexNew := child pprev (params.getHash block) block.nTime
  { tree := index.tree.grow params.toTreeParams pprev (params.treeHeader block)
    fields := update index.fields pindexNew (index.newFields block pindexNew)
    pindexBestHeader := pindexBestHeader }

theorem addToBlockIndex_of_new {block : HeaderFields} {pprev : CBlockIndex}
    (hnew : index.tree.find (params.getHash block) = none)
    (hprev : index.tree.find block.hashPrevBlock = some pprev) :
    ∃ best, index.addToBlockIndex params block = index.extended params block pprev best := by
  have hadded : index.tree.addToBlockIndex params.toTreeParams (params.treeHeader block) = _ :=
    BlockTree.addToBlockIndex_of_new hnew hprev
  rw [addToBlockIndex, hnew]
  rw [hadded]
  exact ⟨_, rfl⟩

section extended

variable {block : HeaderFields} {pprev : CBlockIndex} {best : Option CBlockIndex}

theorem extended_of_mem (hnew : index.tree.find (params.getHash block) = none)
    (hin : pindex ∈ index.tree.mapBlockIndex) :
    (index.extended params block pprev best).tree.entry pindex = index.tree.entry pindex ∧
      (index.extended params block pprev best).fields pindex = index.fields pindex := by
  have hout : child pprev (params.getHash block) block.nTime ∉
      index.tree.mapBlockIndex := fun hmem => hash_ne_of_find_none hnew hmem rfl
  refine ⟨entry_grow_of_mem hnew hin, update_of_ne ?_ _ _⟩
  rintro rfl
  exact hout hin

theorem extended_new :
    (index.extended params block pprev best).tree.entry
        (.child pprev (params.getHash block) block.nTime) =
      index.tree.newEntry params.toTreeParams pprev (params.getHash block) ∧
    (index.extended params block pprev best).fields
        (.child pprev (params.getHash block) block.nTime) =
      index.newFields block (.child pprev (params.getHash block) block.nTime) :=
  ⟨entry_grow_new params.toTreeParams index.tree pprev (params.treeHeader block), update_self _ _ _⟩

section

variable (hkept : index.Kept params) (hnew : index.tree.find (params.getHash block) = none)
  (hprev : index.tree.find block.hashPrevBlock = some pprev) (hheight : pprev.nHeight < intMax)
  (hproof : checkProofOfWork params.powLimit (params.getHash block) block.nBits = true)

include hkept hnew hprev hheight hproof

/-- A new entry is made from the header and the entry before. -/
theorem Kept.placed_new :
    (index.extended params block pprev best).Placed params
      (.child pprev (params.getHash block) block.nTime) := by
  obtain ⟨hin, hhash⟩ := BlockTree.mem_of_find hprev
  obtain ⟨hprevEntry, hprevFields⟩ :
      (index.extended params block pprev best).tree.entry pprev = index.tree.entry pprev ∧
        (index.extended params block pprev best).fields pprev = index.fields pprev :=
    extended_of_mem hnew hin
  obtain ⟨hent, hfields⟩ := @extended_new params index block pprev best
  have hhead : (index.extended params block pprev best).getBlockHeader
      (.child pprev (params.getHash block) block.nTime) = block := by
    rw [getBlockHeader, hfields, CBlockIndex.hashPrevBlock, CBlockIndex.pprev, map_some, hhash]
    rfl
  refine ⟨?_, ?_, ?_, ?_, ?_, ?_⟩
  · rw [hhead]
    rfl
  · rw [hfields]
    exact hproof
  · exact hheight
  · rw [hent, CBlockIndex.pprev, elim_some, hprevEntry, hfields]
    exact congrArg _ (params.getBlockProof_getHash block (getBlockProof_pos hproof))
  · rw [hfields, newFields, CBlockIndex.pprev, elim_some, elim_some, hprevFields]
    rfl
  · -- the skip pointers of all blocks before are right, so the new one is
    have hwalk : index.getAncestor pprev (getSkipHeight (pprev.nHeight + 1)) =
        (pprev.getAncestor (getSkipHeight (pprev.nHeight + 1))).map id := by
      refine @getAncestorBySkip_spec _ _ _ id pprev _ (fun other _ => ?_) fun other ho => ?_
      · rw [map_id]
        rfl
      · rw [map_id]
        exact (hkept.placed other (hkept.grown.ancestors hin ho)).pskip
    rw [hfields, newFields, CBlockIndex.pprev, bind_some, CBlockIndex.nHeight, hwalk, map_id]
    rfl

theorem Kept.extended : (index.extended params block pprev best).Kept params := by
  obtain ⟨hin, -⟩ := mem_of_find hprev
  have hsame : ∀ other ∈ index.tree.mapBlockIndex,
      (index.extended params block pprev best).tree.entry other = index.tree.entry other ∧
        (index.extended params block pprev best).fields other = index.fields other :=
    fun other ho => extended_of_mem hnew ho
  obtain ⟨hent, hfields⟩ := @extended_new params index block pprev best
  refine ⟨hkept.grown.grow hnew hin, hkept.linking.grow hkept.grown hnew hin, ?_, ?_⟩
  · intro pindex hmem
    rcases List.mem_cons.1 hmem with rfl | hold
    · exact hkept.placed_new hnew hprev hheight hproof
    · refine (hkept.placed pindex hold).of_same ?_ ?_ fun other ho => ?_
      · rw [getBlockHeader, getBlockHeader, (hsame pindex hold).2]
      · rw [(hsame pindex hold).2]
      · obtain ⟨hent, hfields⟩ := hsame other (hkept.grown.ancestors hold ho)
        rw [hent, hfields]
        exact ⟨rfl, rfl⟩
  · intro pindex hmem
    rcases List.mem_cons.1 hmem with rfl | hold
    · change Filed ((index.extended params block pprev best).tree.entry
          (.child pprev (params.getHash block) block.nTime))
        ((index.extended params block pprev best).fields
          (.child pprev (params.getHash block) block.nTime))
      rw [hent, hfields]
      exact ⟨le_rfl, (by decide : blockValidTree ≤ blockValidMask), fun _ => ⟨rfl, rfl, rfl⟩,
        zero_le _, zero_le _, zero_le _, rfl⟩
    · rw [(hsame pindex hold).1, (hsame pindex hold).2]
      exact hkept.filed pindex hold

end

end extended

theorem fields_receivedBlockTransactions (params : IndexParams) (index : IndexState)
    (pindex : CBlockIndex) (nTx : ℕ) (pos : CDiskBlockPos) (other : CBlockIndex) :
    (index.receivedBlockTransactions params pindex nTx pos).fields other =
      if other = pindex then { index.fields other with
        nFile := pos.nFile
        nDataPos := pos.nPos
        nUndoPos := 0
        optWitness := (index.fields other).optWitness || params.isWitnessEnabled other.pprev }
      else index.fields other := by
  rw [receivedBlockTransactions]
  dsimp only
  rw [update_apply]
  split_ifs with hsame
  · rw [hsame]
  · rfl

/-- The data of a block is filed, and it is linked or waits. -/
theorem Kept.receivedBlockTransactions (hkept : index.Kept params)
    (hin : pindex ∈ index.tree.mapBlockIndex)
    (hdata : (index.tree.entry pindex).haveData = false) {nTx : ℕ} {pos : CDiskBlockPos}
    (hfits : Storable nTx pos) (horderly : index.tree.Orderly pindex)
    (hcount : index.tree.Countable pindex nTx) :
    (index.receivedBlockTransactions params pindex nTx pos).Kept params := by
  have hfiled := hkept.filed pindex hin
  have hnTx := (hfiled.noData hdata).1
  have hlink := (queued_received params.toTreeParams index.tree pindex nTx).linked
  have hvalid : ∀ pprev, pindex.pprev = some pprev → (index.tree.entry pprev).nChainTx = 0 →
      (index.tree.entry pprev).isValid blockValidTree = true := by
    intro pprev hprev hzero
    rw [BlockEntry.isValid, horderly pprev hprev hzero]
    exact decide_eq_true (hkept.filed pprev (hkept.grown.pprev pindex hin pprev hprev)).tree
  have hmap : (index.receivedBlockTransactions params pindex nTx pos).tree.mapBlockIndex =
      index.tree.mapBlockIndex := hlink.mapBlockIndex
  have hent : ∀ other,
      (index.receivedBlockTransactions params pindex nTx pos).tree.entry other =
        { (index.tree.stored pindex nTx).entry other with
          nChainTx := ((index.receivedBlockTransactions params pindex nTx pos).tree.entry
            other).nChainTx
          nSequenceId := ((index.receivedBlockTransactions params pindex nTx pos).tree.entry
            other).nSequenceId } := hlink.entry
  have hfields := fields_receivedBlockTransactions params index pindex nTx pos
  refine ⟨hkept.grown.receivedBlockTransactions hin nTx,
    hkept.linking.receivedBlockTransactions hin hnTx hfits.notEmpty hcount hvalid, ?_, ?_⟩
  · intro other ho
    rw [hmap] at ho
    -- the header, the time and the skip pointer are not touched
    refine (hkept.placed other ho).of_same ?_ ?_ fun low _ => ⟨?_, ?_⟩
    · rw [getBlockHeader, hfields]
      split <;> rfl
    · rw [hfields]
      split <;> rfl
    · rw [hent, entry_stored]
      split <;> rfl
    · rw [hfields]
      split <;> rfl
  · intro other ho
    rw [hmap] at ho
    rw [hent, entry_stored]
    by_cases hsame : other = pindex
    · subst hsame
      have hlevel : blockValidTree ≤ max (index.tree.entry other).nValidity
          blockValidTransactions := le_max_of_le_left hfiled.tree
      have hmask : max (index.tree.entry other).nValidity blockValidTransactions ≤
          blockValidMask := max_le hfiled.mask (by decide)
      rw [if_pos rfl, hfields, if_pos rfl]
      cases (index.tree.entry other).failed with
      | true =>
        exact ⟨hfiled.tree, hfiled.mask, by simp, hfits.nTx, hfits.nFile, hfits.nPos, rfl⟩
      | false => exact ⟨hlevel, hmask, by simp, hfits.nTx, hfits.nFile, hfits.nPos, rfl⟩
    · have hfiled := hkept.filed other ho
      rw [if_neg hsame, hfields, if_neg hsame]
      exact ⟨hfiled.tree, hfiled.mask, hfiled.noData, hfiled.nTx, hfiled.nFile, hfiled.nDataPos,
        hfiled.nUndoPos⟩

end steps

/-- What a call has to meet. The callers of `AddToBlockIndex` and `ReceivedBlockTransactions` see
to it, except that no block is stored on a failed unlinked one. -/
def Fit (params : IndexParams) (index : IndexState) : BuildCall → Prop
  | .addToBlockIndex block =>
    (index.tree.find (params.getHash block)).isSome = true ∨
      checkProofOfWork params.powLimit (params.getHash block) block.nBits = true ∧
        ∃ pprev ∈ index.tree.find block.hashPrevBlock, pprev.nHeight < intMax
  | .receivedBlockTransactions hash nTx pos =>
    ∀ pindex ∈ index.tree.find hash, (index.tree.entry pindex).haveData = false ∧
      Storable nTx pos ∧ index.tree.Orderly pindex ∧ index.tree.Countable pindex nTx
  | .invalidateBlock _ _ => True
  | .resetBlockFailureFlags _ => True

instance (tree : BlockTree) (pindex : CBlockIndex) : Decidable (tree.Orderly pindex) :=
  inferInstanceAs (Decidable (∀ pprev ∈ pindex.pprev, (tree.entry pprev).nChainTx = 0 →
    (tree.entry pprev).failed = false))

instance (tree : BlockTree) (pindex : CBlockIndex) (nTx : ℕ) :
    Decidable (tree.Countable pindex nTx) :=
  inferInstanceAs (Decidable (∀ other ∈ tree.mapBlockIndex, _ → _))

instance (params : IndexParams) (index : IndexState) :
    ∀ call : BuildCall, Decidable (index.Fit params call)
  | .addToBlockIndex _ => inferInstanceAs (Decidable (_ ∨ _ ∧ ∃ pprev ∈ _, _))
  | .receivedBlockTransactions _ _ _ => inferInstanceAs (Decidable (∀ pindex ∈ _, _ ∧ _ ∧ _ ∧ _))
  | .invalidateBlock _ _ => .isTrue trivial
  | .resetBlockFailureFlags _ => .isTrue trivial

theorem Kept.call {params : IndexParams} {index next : IndexState} {call : BuildCall}
    (hkept : index.Kept params) (hfit : index.Fit params call)
    (hcall : index.call params call = .ok next) : next.Kept params := by
  have hflags : ∀ {treeCall : TreeCall},
      (∀ tree, index.tree.call params.toTreeParams treeCall = .ok tree →
        BlockTree.Reflagged index.tree tree) →
      (index.tree.call params.toTreeParams treeCall).map
        (fun tree => ({ index with tree := tree } : IndexState)) = .ok next →
      next.Kept params := by
    intro treeCall hreflag hmap
    rcases htree : index.tree.call params.toTreeParams treeCall with fault | tree
    · cases htree ▸ hmap
    · cases htree ▸ hmap
      exact hkept.reflagged (hkept.grown.call htree) (hreflag tree htree)
  cases call with
  | addToBlockIndex block =>
    cases hcall
    cases hnew : index.tree.find (params.getHash block) with
    | some known =>
      rw [addToBlockIndex, hnew]
      exact hkept
    | none =>
      rw [Fit, hnew] at hfit
      obtain ⟨hproof, pprev, hprev, hheight⟩ := hfit.resolve_left (by simp)
      obtain ⟨best, hextended⟩ := addToBlockIndex_of_new hnew hprev
      rw [hextended]
      exact hkept.extended hnew hprev hheight hproof
  | receivedBlockTransactions hash nTx pos =>
    rw [IndexState.call] at hcall
    split at hcall
    · cases hcall
      exact hkept
    · next pindex hfind =>
      cases hcall
      obtain ⟨hdata, hfits, horderly, hcount⟩ := hfit pindex hfind
      exact hkept.receivedBlockTransactions (BlockTree.mem_of_find hfind).1 hdata hfits horderly
        hcount
  | invalidateBlock env hash =>
    refine hflags (fun tree htree => ?_) hcall
    rw [BlockTree.call] at htree
    split at htree
    · cases htree
      exact ⟨rfl, rfl, fun _ => rfl⟩
    · cases htree
      exact BlockTree.reflagged_invalidateBlock _ _ _ _
  | resetBlockFailureFlags hash =>
    refine hflags (fun tree htree => ?_) hcall
    rw [BlockTree.call] at htree
    split at htree
    · cases htree
      exact ⟨rfl, rfl, fun _ => rfl⟩
    · cases htree
      exact BlockTree.reflagged_resetBlockFailureFlags _ _ _

theorem kept_initial (params : IndexParams) {nTx : ℕ} {pos : CDiskBlockPos}
    (hfits : Storable nTx pos) : (initial params nTx pos).Kept params := by
  have hidx := BlockTree.indexed_initial params.toTreeParams params.genesis.nTime hfits.notEmpty
    (Nat.lt_succ_of_le hfits.nTx)
  have hgen : ∀ pindex ∈ (initial params nTx pos).tree.mapBlockIndex,
      pindex = .genesis params.hashGenesisBlock params.genesis.nTime :=
    fun pindex => List.mem_singleton.1
  have hent : (initial params nTx pos).tree.entry
      (.genesis params.hashGenesisBlock params.genesis.nTime) =
      ⟨blockValidTransactions, true, false, false, false, nTx, nTx,
        params.getBlockProof params.hashGenesisBlock, 1⟩ := by
    simp only [initial, BlockTree.initial, update_self]
  refine ⟨hidx.grown, hidx.linking, ?_, ?_⟩
  · intro pindex hin
    rw [hgen pindex hin]
    refine ⟨?_, ?_, zero_le _, ?_, rfl, rfl⟩
    · have hhead : (initial params nTx pos).getBlockHeader
          (.genesis params.hashGenesisBlock params.genesis.nTime) = params.genesis := by
        rw [getBlockHeader, hashPrevBlock, pprev, map_none, ← params.genesis_hashPrevBlock]
        rfl
      rw [hhead]
      exact params.getHash_genesis
    · have hproof := params.genesis_proof
      rw [params.getHash_genesis] at hproof
      exact hproof
    · have hwork := params.getBlockProof_getHash params.genesis
        (getBlockProof_pos params.genesis_proof)
      rw [params.getHash_genesis] at hwork
      rw [hent]
      exact hwork.trans (zero_add _).symm
  · intro pindex hin
    rw [hgen pindex hin, hent]
    exact ⟨(by decide : blockValidTree ≤ blockValidTransactions),
      (by decide : blockValidTransactions ≤ blockValidMask), by simp, hfits.nTx, hfits.nFile,
      hfits.nPos, rfl⟩

end IndexState

end Catoshi
